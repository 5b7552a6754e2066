import Senna.Json.Tree
import Mathlib.Data.List.Basic

/-!
# JSON as text

`Json.render` writes a document without spaces, with the escapes a writer uses
that keeps its output safe inside HTML: the quote, the backslash, control
characters, `<`, `>`, `&` and the two Unicode line separators. `Json.parse` reads
any JSON text: white space between tokens, every escape, surrogate pairs (a lone
half becomes the replacement character), numbers without leading zeros.

The one theorem the layers above need is **`parse_render`**: what was written is
read back as the same document. It is built the way the text is: digits, numbers,
strings, then values by induction on the document, with the statement for the rest
of an array and the rest of an object proved along. A reader of numbers goes on
while it can, so each statement about text in the middle carries that what follows
stops a number (`Stops`), which every separator does.

The reader recurses on fuel. One unit per nested value or element is enough
(`fuel`), and a document has no more of these than its text has characters
(`fuel_le_length`), so the length of the text is always enough.
-/

namespace Json

/-! ### Digits -/

def digitChar (d : Fin 10) : Char := Nat.digitChar d

def digitVal (c : Char) : Fin 10 := Fin.ofNat 10 (c.toNat - 48)

def digitRun (cs : List Char) : List Char × List Char :=
  (cs.takeWhile Char.isDigit, cs.dropWhile Char.isDigit)

def Stops (cs : List Char) : Prop :=
  ∀ c ∈ cs.head?, c.isDigit = false ∧ c ≠ '.' ∧ c ≠ 'e' ∧ c ≠ 'E'

def NoDigit (cs : List Char) : Prop := ∀ c ∈ cs.head?, c.isDigit = false

theorem Stops.noDigit {cs : List Char} (h : Stops cs) : NoDigit cs := fun c hc => (h c hc).1

@[simp] theorem stops_nil : Stops [] := fun c hc => by simp at hc

variable {c : Char}

theorem noDigit_cons (cs : List Char) (h : c.isDigit = false) : NoDigit (c :: cs) := by
  intro d hd
  obtain rfl : c = d := by simpa using hd
  exact h

theorem digitVal_digitChar (d : Fin 10) : digitVal (digitChar d) = d := by
  revert d; decide

theorem isDigit_digitChar (d : Fin 10) : (digitChar d).isDigit = true := by
  revert d; decide

variable {rest : List Char}

theorem digitRun_append {ds : List Char} (hds : ∀ c ∈ ds, c.isDigit = true)
    (hrest : NoDigit rest) : digitRun (ds ++ rest) = (ds, rest) := by
  have hstop : rest.takeWhile Char.isDigit = [] ∧ rest.dropWhile Char.isDigit = rest := by
    cases rest with
    | nil => exact ⟨rfl, rfl⟩
    | cons c cs =>
      have hc : c.isDigit = false := hrest c rfl
      simp [hc]
  unfold digitRun
  rw [List.takeWhile_append_of_pos hds, List.dropWhile_append_of_pos hds, hstop.1, hstop.2,
    List.append_nil]

theorem digitRun_toDigits (n : ℕ) (hrest : NoDigit rest) :
    digitRun (Nat.toDigits 10 n ++ rest) = (Nat.toDigits 10 n, rest) :=
  digitRun_append (fun _ hc => Nat.isDigit_of_mem_toDigits (by decide) (by decide) hc) hrest

/-! ### Numbers -/

def renderFrac : List (Fin 10) → List Char
  | [] => []
  | d :: ds => '.' :: (d :: ds).map digitChar

def renderExp : Option ℤ → List Char
  | none => []
  | some e => 'e' :: (if e < 0 then '-' else '+') :: Nat.toDigits 10 e.natAbs

def renderNumber (n : Number) : List Char :=
  (if n.neg then ['-'] else []) ++ Nat.toDigits 10 n.int ++ renderFrac n.frac ++ renderExp n.exp

def parseSign : List Char → Bool × List Char
  | '-' :: cs => (true, cs)
  | cs => (false, cs)

/-- Read an integer part. It must be written the way the number is: at least one
digit, and no leading zeros. -/
def parseNat (cs : List Char) : Option (ℕ × List Char) :=
  let (ds, rest) := digitRun cs
  let n := Nat.ofDigitChars 10 ds 0
  if Nat.toDigits 10 n = ds then some (n, rest) else none

def parseFrac : List Char → Option (List (Fin 10) × List Char)
  | '.' :: cs =>
    let (ds, rest) := digitRun cs
    if ds = [] then none else some (ds.map digitVal, rest)
  | cs => some ([], cs)

def parseExpSign : List Char → Bool × List Char
  | '-' :: cs => (true, cs)
  | '+' :: cs => (false, cs)
  | cs => (false, cs)

/-- Read an optional exponent, which has at least one digit; leading zeros are
allowed here. -/
def parseExp : List Char → Option (Option ℤ × List Char)
  | [] => some (none, [])
  | c :: cs =>
    if c = 'e' ∨ c = 'E' then
      let (neg, cs) := parseExpSign cs
      let (ds, rest) := digitRun cs
      let n : ℤ := Nat.ofDigitChars 10 ds 0
      if ds = [] then none else some (some (if neg then -n else n), rest)
    else some (none, c :: cs)

def parseNumber (cs : List Char) : Option (Number × List Char) := do
  let (neg, cs) := parseSign cs
  let (int, cs) ← parseNat cs
  let (frac, cs) ← parseFrac cs
  let (exp, cs) ← parseExp cs
  some (⟨neg, int, frac, exp⟩, cs)

theorem parseNat_toDigits (n : ℕ) (hrest : NoDigit rest) :
    parseNat (Nat.toDigits 10 n ++ rest) = some (n, rest) := by
  unfold parseNat
  rw [digitRun_toDigits n hrest]
  simp [Nat.ofDigitChars_ten_toDigits]

theorem parseExp_renderExp (e : Option ℤ) (hrest : Stops rest) :
    parseExp (renderExp e ++ rest) = some (e, rest) := by
  cases e with
  | none =>
    cases rest with
    | nil => rfl
    | cons c cs =>
      obtain ⟨-, -, he, hE⟩ := hrest c rfl
      simp [renderExp, parseExp, he, hE]
  | some e =>
    have hrun := digitRun_toDigits e.natAbs hrest.noDigit
    have hsign : parseExpSign ((if e < 0 then '-' else '+') :: (Nat.toDigits 10 e.natAbs ++ rest))
        = (decide (e < 0), Nat.toDigits 10 e.natAbs ++ rest) := by
      by_cases he : e < 0 <;> simp [he, parseExpSign]
    have hval : (if e < 0 then -(e.natAbs : ℤ) else (e.natAbs : ℤ)) = e := by split <;> omega
    simp only [renderExp, List.cons_append, parseExp, true_or, if_true, hsign, hrun,
      Nat.toDigits_ne_nil, if_false, Nat.ofDigitChars_ten_toDigits, decide_eq_true_eq, hval]

theorem parseFrac_renderFrac (ds : List (Fin 10)) (hrest : NoDigit rest)
    (hdot : rest.head? ≠ some '.') : parseFrac (renderFrac ds ++ rest) = some (ds, rest) := by
  cases ds with
  | nil =>
    -- without a fraction the reader only looks whether a point follows
    change parseFrac rest = _
    unfold parseFrac
    split
    · exact absurd rfl hdot
    · rfl
  | cons d ds =>
    have hdigits : ∀ c ∈ (d :: ds).map digitChar, c.isDigit = true := by
      intro c hc
      obtain ⟨x, -, rfl⟩ := List.mem_map.mp hc
      exact isDigit_digitChar x
    have hback : ((d :: ds).map digitChar).map digitVal = d :: ds := by
      rw [List.map_map]
      exact (List.map_congr_left fun x _ => digitVal_digitChar x).trans (List.map_id _)
    change parseFrac ('.' :: ((d :: ds).map digitChar ++ rest)) = _
    simp only [parseFrac, digitRun_append hdigits hrest, hback]
    simp

theorem noDigit_frac_exp (ds : List (Fin 10)) (e : Option ℤ) (hrest : Stops rest) :
    NoDigit (renderFrac ds ++ (renderExp e ++ rest)) := by
  cases ds with
  | cons d ds => exact noDigit_cons _ (by decide)
  | nil =>
    cases e with
    | some e => exact noDigit_cons _ (by decide)
    | none => exact hrest.noDigit

theorem noDigit_exp (e : Option ℤ) (hrest : Stops rest) :
    NoDigit (renderExp e ++ rest) := noDigit_frac_exp [] e hrest

theorem head?_exp_ne_dot (e : Option ℤ) (hrest : Stops rest) :
    (renderExp e ++ rest).head? ≠ some '.' := by
  cases e with
  | some e => simp [renderExp]
  | none =>
    intro h
    exact (hrest '.' h).2.1 rfl

theorem parseSign_toDigits (n : ℕ) (rest : List Char) :
    parseSign (Nat.toDigits 10 n ++ rest) = (false, Nat.toDigits 10 n ++ rest) := by
  cases hds : Nat.toDigits 10 n with
  | nil => exact absurd hds Nat.toDigits_ne_nil
  | cons c cs =>
    have hc : c.isDigit = true :=
      Nat.isDigit_of_mem_toDigits (by decide) (by decide) (hds ▸ List.mem_cons_self)
    unfold parseSign
    split
    · next h =>
      obtain ⟨rfl, -⟩ := List.cons.inj h
      exact absurd hc (by decide)
    · rfl

theorem parseNumber_renderNumber (n : Number) (hrest : Stops rest) :
    parseNumber (renderNumber n ++ rest) = some (n, rest) := by
  obtain ⟨neg, int, frac, exp⟩ := n
  have hsign : parseSign (renderNumber ⟨neg, int, frac, exp⟩ ++ rest)
      = (neg, Nat.toDigits 10 int ++ (renderFrac frac ++ (renderExp exp ++ rest))) := by
    cases neg with
    | true => simp [renderNumber, parseSign]
    | false => simp [renderNumber, parseSign_toDigits]
  unfold parseNumber
  rw [hsign]
  simp only [parseNat_toDigits int (noDigit_frac_exp frac exp hrest), Option.bind_eq_bind,
    Option.bind_some, parseFrac_renderFrac frac (noDigit_exp exp hrest)
      (head?_exp_ne_dot exp hrest), parseExp_renderExp exp hrest]

/-! ### Strings -/

def hex4 (n : ℕ) : List Char :=
  [Nat.digitChar (n / 4096 % 16), Nat.digitChar (n / 256 % 16), Nat.digitChar (n / 16 % 16),
    Nat.digitChar (n % 16)]

def escape (c : Char) : List Char :=
  if c = '"' then ['\\', '"']
  else if c = '\\' then ['\\', '\\']
  else if c = '\x08' then ['\\', 'b']
  else if c = '\x0c' then ['\\', 'f']
  else if c = '\n' then ['\\', 'n']
  else if c = '\r' then ['\\', 'r']
  else if c = '\t' then ['\\', 't']
  else if c.toNat < 0x20 ∨ c = '<' ∨ c = '>' ∨ c = '&' ∨ c = '\u2028' ∨ c = '\u2029' then
    '\\' :: 'u' :: hex4 c.toNat
  else [c]

def renderString (s : String) : List Char := '"' :: (s.toList.flatMap escape ++ ['"'])

def hexVal (c : Char) : Option ℕ :=
  if c.isDigit then some (c.toNat - 48)
  else if 'a' ≤ c ∧ c ≤ 'f' then some (c.toNat - 87)
  else if 'A' ≤ c ∧ c ≤ 'F' then some (c.toNat - 55)
  else none

def hex4? (a b c d : Char) : Option ℕ := do
  let a ← hexVal a
  let b ← hexVal b
  let c ← hexVal c
  let d ← hexVal d
  some (4096 * a + 256 * b + 16 * c + d)

def isSurrogate (n : ℕ) : Bool := 0xd800 ≤ n ∧ n < 0xe000

def surrogatePair (n m : ℕ) : Option Char :=
  if n < 0xdc00 ∧ 0xdc00 ≤ m ∧ m < 0xe000 then
    some (Char.ofNat (0x10000 + (n - 0xd800) * 0x400 + (m - 0xdc00)))
  else none

def unescape : Char → Option Char
  | '"' => some '"'
  | '\\' => some '\\'
  | '/' => some '/'
  | 'b' => some '\x08'
  | 'f' => some '\x0c'
  | 'n' => some '\n'
  | 'r' => some '\r'
  | 't' => some '\t'
  | _ => none

def consChar (c : Char) (r : Option (List Char × List Char)) : Option (List Char × List Char) :=
  r.map fun p => (c :: p.1, p.2)

/-- Read a string up to its closing quote. A half of a surrogate pair without the
other half becomes the replacement character. -/
def parseString : List Char → Option (List Char × List Char)
  | [] => none
  | '"' :: rest => some ([], rest)
  | '\\' :: 'u' :: a :: b :: c :: d :: rest =>
    match hex4? a b c d with
    | none => none
    | some n =>
      if isSurrogate n then
        match rest with
        | '\\' :: 'u' :: a' :: b' :: c' :: d' :: rest' =>
          match (hex4? a' b' c' d').bind (surrogatePair n) with
          | some x => consChar x (parseString rest')
          | none =>
            consChar '\ufffd' (parseString ('\\' :: 'u' :: a' :: b' :: c' :: d' :: rest'))
        | rest => consChar '\ufffd' (parseString rest)
      else consChar (Char.ofNat n) (parseString rest)
  | '\\' :: c :: rest =>
    match unescape c with
    | none => none
    | some x => consChar x (parseString rest)
  | c :: rest => if c.toNat < 0x20 then none else consChar c (parseString rest)

theorem hexVal_digitChar {n : ℕ} (h : n < 16) : hexVal (Nat.digitChar n) = some n := by
  revert n; decide

theorem hex4?_hex4 {n : ℕ} (h : n < 65536) :
    hex4? (Nat.digitChar (n / 4096 % 16)) (Nat.digitChar (n / 256 % 16))
      (Nat.digitChar (n / 16 % 16)) (Nat.digitChar (n % 16)) = some n := by
  have hdigit : ∀ m, hexVal (Nat.digitChar (m % 16)) = some (m % 16) :=
    fun m => hexVal_digitChar (Nat.mod_lt m (by decide))
  simp only [hex4?, hdigit, Option.bind_eq_bind, Option.bind_some, Option.some.injEq]
  omega

theorem parseString_plain (hquote : c ≠ '"') (hback : c ≠ '\\')
    (hcontrol : ¬ c.toNat < 0x20) (rest : List Char) :
    parseString (c :: rest) = consChar c (parseString rest) := by
  rw [parseString.eq_def]
  split <;> simp_all

theorem parseString_unicode (hlt : c.toNat < 0xd800) (rest : List Char) :
    parseString ('\\' :: 'u' :: (hex4 c.toNat ++ rest)) = consChar c (parseString rest) := by
  have hsur : isSurrogate c.toNat = false := by simp [isSurrogate]; omega
  change parseString ('\\' :: 'u' :: _ :: _ :: _ :: _ :: rest) = _
  rw [parseString, hex4?_hex4 (by omega)]
  simp [hsur, Char.ofNat_toNat]

theorem parseString_escape (c : Char) (rest : List Char) :
    parseString (escape c ++ rest) = consChar c (parseString rest) := by
  by_cases hshort : c ∈ ['"', '\\', '\x08', '\x0c', '\n', '\r', '\t']
  · -- each of the seven short escapes is read back by `unescape`
    simp only [List.mem_cons, List.not_mem_nil, or_false] at hshort
    obtain rfl | rfl | rfl | rfl | rfl | rfl | rfl := hshort <;> rfl
  · simp only [List.mem_cons, List.not_mem_nil, or_false, not_or] at hshort
    obtain ⟨h1, h2, h3, h4, h5, h6, h7⟩ := hshort
    simp only [escape, if_neg h1, if_neg h2, if_neg h3, if_neg h4, if_neg h5, if_neg h6, if_neg h7]
    split
    · next hcode =>
      have hlt : c.toNat < 0xd800 := by
        obtain h | rfl | rfl | rfl | rfl | rfl := hcode
        · omega
        all_goals decide
      exact parseString_unicode hlt rest
    · next hcode => exact parseString_plain h1 h2 (fun h => hcode (Or.inl h)) rest

theorem parseString_flatMap (cs rest : List Char) :
    parseString (cs.flatMap escape ++ '"' :: rest) = some (cs, rest) := by
  induction cs with
  | nil => rfl
  | cons c cs ih =>
    rw [List.flatMap_cons, List.append_assoc, parseString_escape, ih]
    rfl

/-! ### Values -/

mutual

def renderValue : Json → List Char
  | null => ['n', 'u', 'l', 'l']
  | bool true => ['t', 'r', 'u', 'e']
  | bool false => ['f', 'a', 'l', 's', 'e']
  | num n => renderNumber n
  | str s => renderString s
  | arr [] => ['[', ']']
  | arr (t :: ts) => '[' :: (renderValue t ++ renderItems ts)
  | obj [] => ['{', '}']
  | obj (m :: ms) => '{' :: (renderString m.1 ++ ':' :: (renderValue m.2 ++ renderMembers ms))

def renderItems : List Json → List Char
  | [] => [']']
  | t :: ts => ',' :: (renderValue t ++ renderItems ts)

def renderMembers : List (String × Json) → List Char
  | [] => ['}']
  | m :: ms => ',' :: (renderString m.1 ++ ':' :: (renderValue m.2 ++ renderMembers ms))

end

def render (t : Json) : String := String.ofList (renderValue t)

def isSpace (c : Char) : Bool := c = ' ' ∨ c = '\t' ∨ c = '\n' ∨ c = '\r'

def skip (cs : List Char) : List Char := cs.dropWhile isSpace

mutual

def parseValue : ℕ → List Char → Option (Json × List Char)
  | 0, _ => none
  | n + 1, cs =>
    match skip cs with
    | 'n' :: 'u' :: 'l' :: 'l' :: rest => some (null, rest)
    | 't' :: 'r' :: 'u' :: 'e' :: rest => some (bool true, rest)
    | 'f' :: 'a' :: 'l' :: 's' :: 'e' :: rest => some (bool false, rest)
    | '"' :: rest => (parseString rest).map fun r => (str (String.ofList r.1), r.2)
    | '[' :: rest =>
      match skip rest with
      | ']' :: rest => some (arr [], rest)
      | rest => (parseItems n rest).map fun r => (arr r.1, r.2)
    | '{' :: rest =>
      match skip rest with
      | '}' :: rest => some (obj [], rest)
      | rest => (parseMembers n rest).map fun r => (obj r.1, r.2)
    | rest => (parseNumber rest).map fun r => (num r.1, r.2)

def parseItems : ℕ → List Char → Option (List Json × List Char)
  | 0, _ => none
  | n + 1, cs => do
    let (t, rest) ← parseValue n cs
    match skip rest with
    | ']' :: rest => some ([t], rest)
    | ',' :: rest => (parseItems n rest).map fun r => (t :: r.1, r.2)
    | _ => none

def parseMembers : ℕ → List Char → Option (List (String × Json) × List Char)
  | 0, _ => none
  | n + 1, cs =>
    match skip cs with
    | '"' :: rest => do
      let (name, rest) ← parseString rest
      match skip rest with
      | ':' :: rest =>
        let (t, rest) ← parseValue n rest
        let m := (String.ofList name, t)
        match skip rest with
        | '}' :: rest => some ([m], rest)
        | ',' :: rest => (parseMembers n rest).map fun r => (m :: r.1, r.2)
        | _ => none
      | _ => none
    | _ => none

end

def parse (s : String) : Option Json :=
  match parseValue (s.length + 1) s.toList with
  | some (t, rest) => if skip rest = [] then some t else none
  | none => none

/-! ### Reading what was written -/

mutual

def fuel : Json → ℕ
  | arr (t :: ts) => max t.fuel (fuelItems ts) + 2
  | obj (m :: ms) => max m.2.fuel (fuelMembers ms) + 2
  | _ => 1

def fuelItems : List Json → ℕ
  | [] => 0
  | t :: ts => max t.fuel (fuelItems ts) + 1

def fuelMembers : List (String × Json) → ℕ
  | [] => 0
  | m :: ms => max m.2.fuel (fuelMembers ms) + 1

end

@[simp] theorem skip_cons (cs : List Char) (h : isSpace c = false) :
    skip (c :: cs) = c :: cs := by
  simp [skip, h]

theorem stops_cons (cs : List Char)
    (h : c.isDigit = false ∧ c ≠ '.' ∧ c ≠ 'e' ∧ c ≠ 'E') : Stops (c :: cs) := by
  intro d hd
  obtain rfl : c = d := by simpa using hd
  exact h

theorem stops_renderItems (ts : List Json) (rest : List Char) : Stops (renderItems ts ++ rest) := by
  cases ts <;> exact stops_cons _ (by decide)

theorem stops_renderMembers (ms : List (String × Json)) (rest : List Char) :
    Stops (renderMembers ms ++ rest) := by
  cases ms <;> exact stops_cons _ (by decide)

theorem renderNumber_head (n : Number) :
    ∃ c cs, renderNumber n = c :: cs ∧ (c = '-' ∨ c.isDigit = true) := by
  cases hneg : n.neg with
  | true => exact ⟨'-', _, by simp [renderNumber, hneg]; rfl, Or.inl rfl⟩
  | false =>
    cases hds : Nat.toDigits 10 n.int with
    | nil => exact absurd hds Nat.toDigits_ne_nil
    | cons c cs =>
      have hc : c.isDigit = true :=
        Nat.isDigit_of_mem_toDigits (by decide) (by decide) (hds ▸ List.mem_cons_self)
      exact ⟨c, _, by simp [renderNumber, hneg, hds]; rfl, Or.inr hc⟩

theorem not_isSpace_of_number (h : c = '-' ∨ c.isDigit = true) : isSpace c = false := by
  obtain rfl | h := h
  · decide
  · simp only [isSpace, decide_eq_false_iff_not, not_or]
    refine ⟨?_, ?_, ?_, ?_⟩ <;> rintro rfl <;> exact absurd h (by decide)

theorem parseValue_number (h : c = '-' ∨ c.isDigit = true) (n : ℕ)
    (cs : List Char) :
    parseValue (n + 1) (c :: cs) = (parseNumber (c :: cs)).map fun r => (num r.1, r.2) := by
  rw [parseValue, skip_cons _ (not_isSpace_of_number h)]
  split
  all_goals first
    | rfl
    | (next heq =>
        obtain ⟨rfl, -⟩ := List.cons.inj heq
        exact absurd h (by decide))

theorem renderValue_head (t : Json) :
    ∃ c cs, renderValue t = c :: cs ∧ isSpace c = false ∧ c ≠ ']' := by
  cases t with
  | num n =>
    obtain ⟨c, cs, heq, hc⟩ := renderNumber_head n
    refine ⟨c, cs, by rw [renderValue, heq], not_isSpace_of_number hc, ?_⟩
    rintro rfl
    exact absurd hc (by decide)
  | null => exact ⟨_, _, by rw [renderValue], by decide, by decide⟩
  | bool b => cases b <;> exact ⟨_, _, by rw [renderValue], by decide, by decide⟩
  | str s => exact ⟨_, _, by rw [renderValue, renderString], by decide, by decide⟩
  | arr ts => cases ts <;> exact ⟨_, _, by rw [renderValue], by decide, by decide⟩
  | obj ms => cases ms <;> exact ⟨_, _, by rw [renderValue], by decide, by decide⟩

def ReadBack (t : Json) : Prop :=
  ∀ n rest, t.fuel ≤ n → Stops rest → parseValue n (renderValue t ++ rest) = some (t, rest)

theorem parseItems_cons {t : Json} {ts : List Json} (ht : ReadBack t) {n : ℕ} (hn : t.fuel ≤ n)
    (hts : ∀ u us, ts = u :: us →
      parseItems n (renderValue u ++ (renderItems us ++ rest)) = some (ts, rest)) :
    parseItems (n + 1) (renderValue t ++ (renderItems ts ++ rest)) = some (t :: ts, rest) := by
  rw [parseItems, ht n _ hn (stops_renderItems ts rest)]
  cases ts with
  | nil => simp [renderItems, skip, isSpace]
  | cons u us =>
    have hrest := hts u us rfl
    simp [renderItems, skip, isSpace, hrest]

theorem parseMembers_cons {m : String × Json} {ms : List (String × Json)} (hm : ReadBack m.2)
    {n : ℕ} (hn : m.2.fuel ≤ n)
    (hms : ∀ u us, ms = u :: us →
      parseMembers n (renderString u.1 ++ ':' :: (renderValue u.2 ++ (renderMembers us ++ rest)))
        = some (ms, rest)) :
    parseMembers (n + 1)
      (renderString m.1 ++ ':' :: (renderValue m.2 ++ (renderMembers ms ++ rest)))
      = some (m :: ms, rest) := by
  have hname : parseString (m.1.toList.flatMap escape ++
      '"' :: ':' :: (renderValue m.2 ++ (renderMembers ms ++ rest)))
      = some (m.1.toList, ':' :: (renderValue m.2 ++ (renderMembers ms ++ rest))) :=
    parseString_flatMap _ _
  have hval := hm n _ hn (stops_renderMembers ms rest)
  have htext : renderString m.1 ++ ':' :: (renderValue m.2 ++ (renderMembers ms ++ rest))
      = '"' :: (m.1.toList.flatMap escape ++
          '"' :: ':' :: (renderValue m.2 ++ (renderMembers ms ++ rest))) := by
    simp [renderString]
  rw [htext, parseMembers, skip_cons _ (by decide)]
  simp only [hname, Option.bind_eq_bind, Option.bind_some,
    skip_cons _ (show isSpace ':' = false by decide), hval, String.ofList_toList]
  cases ms with
  | nil => rfl
  | cons u us =>
    have hrest := hms u us rfl
    have htail : renderMembers (u :: us) ++ rest = ',' :: (renderString u.1 ++
        ':' :: (renderValue u.2 ++ (renderMembers us ++ rest))) := by
      simp [renderMembers]
    rw [htail, skip_cons _ (by decide)]
    simp only [hrest, Option.map_some]

mutual

theorem readBack : ∀ t : Json, ReadBack t
  | null => fun n rest hn _ => by
    obtain ⟨n, rfl⟩ : ∃ m, n = m + 1 := ⟨n - 1, by simp [fuel] at hn; omega⟩
    simp [renderValue, parseValue, skip, isSpace]
  | bool b => fun n rest hn _ => by
    obtain ⟨n, rfl⟩ : ∃ m, n = m + 1 := ⟨n - 1, by simp [fuel] at hn; omega⟩
    cases b <;> simp [renderValue, parseValue, skip, isSpace]
  | num x => fun n rest hn hstop => by
    obtain ⟨n, rfl⟩ : ∃ m, n = m + 1 := ⟨n - 1, by simp [fuel] at hn; omega⟩
    obtain ⟨c, cs, heq, hc⟩ := renderNumber_head x
    have hread := parseNumber_renderNumber x hstop
    rw [renderValue]
    rw [heq, List.cons_append] at hread ⊢
    rw [parseValue_number hc, hread]
    rfl
  | str s => fun n rest hn _ => by
    obtain ⟨n, rfl⟩ : ∃ m, n = m + 1 := ⟨n - 1, by simp [fuel] at hn; omega⟩
    have hread := parseString_flatMap s.toList rest
    simp [renderValue, renderString, parseValue, skip, isSpace, hread]
  | arr [] => fun n rest hn _ => by
    obtain ⟨n, rfl⟩ : ∃ m, n = m + 1 := ⟨n - 1, by simp [fuel] at hn; omega⟩
    simp [renderValue, parseValue, skip, isSpace]
  | arr (t :: ts) => fun n rest hn _ => by
    rw [fuel] at hn
    obtain ⟨n, rfl⟩ : ∃ m, n = m + 2 := ⟨n - 2, by omega⟩
    have hread : parseItems (n + 1) (renderValue t ++ (renderItems ts ++ rest)) =
        some (t :: ts, rest) :=
      readBackItems ts t (readBack t) n rest (by omega) (by omega)
    obtain ⟨c, cs, heq, hspace, hclose⟩ := renderValue_head t
    rw [heq, List.cons_append] at hread
    rw [renderValue, heq]
    simp only [List.cons_append, List.append_assoc, parseValue]
    rw [skip_cons _ (by decide)]
    simp [skip_cons _ hspace, hclose, hread]
  | obj [] => fun n rest hn _ => by
    obtain ⟨n, rfl⟩ : ∃ m, n = m + 1 := ⟨n - 1, by simp [fuel] at hn; omega⟩
    simp [renderValue, parseValue, skip, isSpace]
  | obj (m :: ms) => fun n rest hn _ => by
    rw [fuel] at hn
    obtain ⟨n, rfl⟩ : ∃ m, n = m + 2 := ⟨n - 2, by omega⟩
    have hread := readBackMembers ms m (readBack m.2) n rest (by omega) (by omega)
    rw [renderString, List.cons_append] at hread
    rw [renderValue, renderString]
    simp only [List.cons_append, List.append_assoc, parseValue]
    rw [skip_cons _ (by decide)]
    simp [skip_cons _ (show isSpace '"' = false by decide)]
    simpa using hread

theorem readBackItems : ∀ (ts : List Json) (t : Json), ReadBack t → ∀ n rest, t.fuel ≤ n →
    fuelItems ts ≤ n →
    parseItems (n + 1) (renderValue t ++ (renderItems ts ++ rest)) = some (t :: ts, rest)
  | [], t => fun ht n rest hn _ =>
    parseItems_cons ht hn fun _ _ h => by cases h
  | u :: us, t => fun ht n rest hn hfuel => by
    rw [fuelItems] at hfuel
    obtain ⟨n, rfl⟩ : ∃ m, n = m + 1 := ⟨n - 1, by omega⟩
    refine parseItems_cons ht hn fun _ _ h => ?_
    obtain ⟨rfl, rfl⟩ := List.cons.inj h
    exact readBackItems us u (readBack u) n rest (by omega) (by omega)

theorem readBackMembers : ∀ (ms : List (String × Json)) (m : String × Json), ReadBack m.2 →
    ∀ n rest, m.2.fuel ≤ n → fuelMembers ms ≤ n →
    parseMembers (n + 1)
      (renderString m.1 ++ ':' :: (renderValue m.2 ++ (renderMembers ms ++ rest)))
      = some (m :: ms, rest)
  | [], m => fun hm n rest hn _ =>
    parseMembers_cons hm hn fun _ _ h => by cases h
  | u :: us, m => fun hm n rest hn hfuel => by
    rw [fuelMembers] at hfuel
    obtain ⟨n, rfl⟩ : ∃ m, n = m + 1 := ⟨n - 1, by omega⟩
    refine parseMembers_cons hm hn fun _ _ h => ?_
    obtain ⟨rfl, rfl⟩ := List.cons.inj h
    exact readBackMembers us u (readBack u.2) n rest (by omega) (by omega)

end

theorem length_renderNumber_pos (n : Number) : 0 < (renderNumber n).length := by
  obtain ⟨c, cs, heq, -⟩ := renderNumber_head n
  rw [heq]
  exact Nat.succ_pos _

mutual

theorem fuel_le_length : ∀ t : Json, t.fuel ≤ (renderValue t).length
  | null => by simp [fuel, renderValue]
  | bool b => by cases b <;> simp [fuel, renderValue]
  | num n => by
    have hpos := length_renderNumber_pos n
    simp only [fuel, renderValue]
    omega
  | str s => by simp [fuel, renderValue, renderString]
  | arr [] => by simp [fuel, renderValue]
  | arr (t :: ts) => by
    have ht := fuel_le_length t
    have hts := fuelItems_lt_length ts
    simp only [fuel, renderValue, List.length_cons, List.length_append]
    omega
  | obj [] => by simp [fuel, renderValue]
  | obj (m :: ms) => by
    have hm := fuel_le_length m.2
    have hms := fuelMembers_lt_length ms
    simp only [fuel, renderValue, List.length_cons, List.length_append]
    omega

theorem fuelItems_lt_length : ∀ ts : List Json, fuelItems ts < (renderItems ts).length
  | [] => by simp [fuelItems, renderItems]
  | t :: ts => by
    have ht := fuel_le_length t
    have hts := fuelItems_lt_length ts
    simp only [fuelItems, renderItems, List.length_cons, List.length_append]
    omega

theorem fuelMembers_lt_length :
    ∀ ms : List (String × Json), fuelMembers ms < (renderMembers ms).length
  | [] => by simp [fuelMembers, renderMembers]
  | m :: ms => by
    have hm := fuel_le_length m.2
    have hms := fuelMembers_lt_length ms
    simp only [fuelMembers, renderMembers, List.length_cons, List.length_append]
    omega

end

/-- **What was written is read back as the same document.** -/
@[simp] theorem parse_render (t : Json) : parse (render t) = some t := by
  have hfuel : t.fuel ≤ (render t).length + 1 := by
    rw [render, String.length_ofList]
    exact (fuel_le_length t).trans (Nat.le_succ _)
  have hread : parseValue ((render t).length + 1) (render t).toList = some (t, []) := by
    have h := readBack t _ [] hfuel stops_nil
    rwa [List.append_nil, ← String.toList_ofList (l := renderValue t)] at h
  simp [parse, hread, skip]

theorem render_injective : Function.Injective render := by
  intro t u h
  have hparse := congrArg parse h
  rwa [parse_render, parse_render, Option.some.injEq] at hparse

end Json
