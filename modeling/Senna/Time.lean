import Mathlib.Data.Int.Basic
import Mathlib.Tactic.Common

/-!
# Points in time

Jobs carry `time.Time` values in their payloads as RFC 3339 texts, and what the
scripts see of a time is its Unix second. A `Time` is therefore represented by the
text `Time.MarshalJSON` writes for it (`2006-01-02T15:04:05.999999999Z07:00`): the
fraction without trailing zeros, a zero offset as `Z`. `Time.unix` reads the second
off the text; `Time.ofText?` is `UnmarshalJSON`, which accepts other spellings of
the same point in time and normalises them.
-/

namespace Senna

/-- The fields of an RFC 3339 text. -/
structure Civil where
  year : ℕ
  month : ℕ
  day : ℕ
  hour : ℕ
  minute : ℕ
  second : ℕ
  nanos : ℕ
  /-- Minutes east of UTC. -/
  offset : ℤ
  deriving DecidableEq, Repr

namespace Civil

def daysIn (year month : ℕ) : ℕ :=
  if month = 2 then
    if year % 4 = 0 ∧ (year % 100 ≠ 0 ∨ year % 400 = 0) then 29 else 28
  else if month = 4 ∨ month = 6 ∨ month = 9 ∨ month = 11 then 30
  else 31

def isValid (c : Civil) : Bool :=
  1 ≤ c.month ∧ c.month ≤ 12 ∧ 1 ≤ c.day ∧ c.day ≤ daysIn c.year c.month ∧
    c.hour < 24 ∧ c.minute < 60 ∧ c.second < 60

def days (c : Civil) : ℤ :=
  let y : ℤ := if c.month ≤ 2 then (c.year : ℤ) - 1 else c.year
  let era := y / 400
  let yearOfEra := y % 400
  let dayOfYear : ℤ := ((153 * ((c.month + 9) % 12) + 2) / 5 + c.day : ℕ) - 1
  era * 146097 + (yearOfEra * 365 + yearOfEra / 4 - yearOfEra / 100 + dayOfYear) - 719468

def unix (c : Civil) : ℤ :=
  c.days * 86400 + c.hour * 3600 + c.minute * 60 + c.second - c.offset * 60

def pad (width n : ℕ) : List Char :=
  let ds := Nat.toDigits 10 n
  List.replicate (width - ds.length) '0' ++ ds

def formatNanos (nanos : ℕ) : List Char :=
  if nanos = 0 then []
  else '.' :: ((pad 9 nanos).reverse.dropWhile (· = '0')).reverse

def formatOffset (offset : ℤ) : List Char :=
  if offset = 0 then ['Z']
  else (if offset < 0 then '-' else '+') ::
    (pad 2 (offset.natAbs / 60) ++ ':' :: pad 2 (offset.natAbs % 60))

def format (c : Civil) : List Char :=
  pad 4 c.year ++ '-' :: pad 2 c.month ++ '-' :: pad 2 c.day ++ 'T' :: pad 2 c.hour ++
    ':' :: pad 2 c.minute ++ ':' :: pad 2 c.second ++ formatNanos c.nanos ++ formatOffset c.offset

def number (ds : List Char) : Option ℕ :=
  if ds.all Char.isDigit then some (Nat.ofDigitChars 10 ds 0) else none

/-- The nanoseconds of the digits of a fraction; digits after the ninth are cut off. -/
def nanosOf (ds : List Char) : ℕ :=
  Nat.ofDigitChars 10 ((ds ++ List.replicate 9 '0').take 9) 0

def parseNanos : List Char → Option (ℕ × List Char)
  | '.' :: cs =>
    let ds := cs.takeWhile Char.isDigit
    if ds = [] then none else some (nanosOf ds, cs.dropWhile Char.isDigit)
  | cs => some (0, cs)

def parseOffset : List Char → Option ℤ
  | ['Z'] => some 0
  | [sign, h₁, h₂, ':', m₁, m₂] => do
    let hours ← number [h₁, h₂]
    let minutes ← number [m₁, m₂]
    if hours < 24 ∧ minutes < 60 then
      if sign = '+' then some (hours * 60 + minutes)
      else if sign = '-' then some (-(hours * 60 + minutes))
      else none
    else none
  | _ => none

def parse : List Char → Option Civil
  | y₁ :: y₂ :: y₃ :: y₄ :: '-' :: mo₁ :: mo₂ :: '-' :: d₁ :: d₂ :: 'T' :: h₁ :: h₂ :: ':' ::
      mi₁ :: mi₂ :: ':' :: s₁ :: s₂ :: rest => do
    let year ← number [y₁, y₂, y₃, y₄]
    let month ← number [mo₁, mo₂]
    let day ← number [d₁, d₂]
    let hour ← number [h₁, h₂]
    let minute ← number [mi₁, mi₂]
    let second ← number [s₁, s₂]
    let (nanos, rest) ← parseNanos rest
    let offset ← parseOffset rest
    let c : Civil := ⟨year, month, day, hour, minute, second, nanos, offset⟩
    if c.isValid then some c else none
  | _ => none

end Civil

/-- The text `MarshalJSON` writes for the point in time of an RFC 3339 text. -/
def normalizeTime (s : String) : Option String :=
  (Civil.parse s.toList).map fun c => String.ofList c.format

/-- A `time.Time`, as the text that is written for it. -/
structure Time where
  text : String
  /-- The text is the normal one of its point in time. -/
  normal : normalizeTime text = some text

namespace Time

@[ext] theorem ext {t u : Time} (h : t.text = u.text) : t = u := by
  cases t; cases u; cases h; rfl

instance : DecidableEq Time := fun t u =>
  decidable_of_iff (t.text = u.text) ⟨ext, congrArg text⟩

/-- Read a time, as `UnmarshalJSON` does. -/
def ofText? (s : String) : Option Time :=
  (normalizeTime s).bind fun text =>
    if h : normalizeTime text = some text then some ⟨text, h⟩ else none

@[simp] theorem ofText?_text (t : Time) : ofText? t.text = some t := by
  unfold ofText?
  rw [t.normal, Option.bind_some, dif_pos t.normal]

def unix (t : Time) : ℤ := ((Civil.parse t.text.toList).map Civil.unix).getD 0

/-- The zero `time.Time`, midnight of 1 January of year 1. -/
def zero : Time := ⟨"0001-01-01T00:00:00Z", by decide⟩

def isZero (t : Time) : Bool :=
  match Civil.parse t.text.toList with
  | some c => c.unix = -62135596800 ∧ c.nanos = 0
  | none => false

@[simp] theorem isZero_zero : zero.isZero = true := by decide

end Time

end Senna
