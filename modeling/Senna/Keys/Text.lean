import Mathlib.Tactic.Common
import Senna.Batch.Lua
import Senna.Keys
import Senna.Periodic

/-!
# The keys as strings

Everywhere else a key is a constructor with its arguments. In Redis it is a string: `keys.go` writes
the namespace, the words of the constructor and the arguments one after another, with colons between
them, and the arguments may have colons themselves. Here the strings are built as the source builds
them (`Keys.text`), and read back (`Keys.parse`): splitting at the colons gives the pieces of the
namespace, the word of the constructor, and the pieces of its arguments. **Reading a key back gives
the constructor and the arguments it was built from**, so two keys are the same string only if they
are the same key.

An argument is read back by joining its pieces. That needs to know where they end: the words that
follow an argument are counted from the end of the string, except for those of a batch, whose keys are
told apart by the number of their pieces. Here the ID must be free of colons.

`Key.text_injective`, `Periodic.Key.text_injective` and `BatchLua.Key.text_injOn` are what the
models of the queue, the scheduler and the batches rest on when they take constructors for keys.
-/

namespace Senna

/-- A string of Go: any bytes. -/
abbrev GoString := List UInt8

namespace GoString

def bytes (s : String) : GoString := s.toByteArray.data.toList

theorem bytes_injective : Function.Injective bytes := by
  intro s t h
  have hdata : s.toByteArray.data = t.toByteArray.data := Array.toList_inj.mp h
  exact String.toByteArray_inj.mp (ByteArray.ext hdata)

@[simp] theorem bytes_inj {s t : String} : bytes s = bytes t ↔ s = t := bytes_injective.eq_iff

def colon : UInt8 := 58

@[simp] theorem bytes_colon : bytes ":" = [colon] := by decide

/-! ### Pieces -/

def pieces (s : GoString) : List GoString := List.splitOn colon s

def join (ps : List GoString) : GoString := [colon].intercalate ps

@[simp] theorem join_pieces (s : GoString) : join (pieces s) = s := List.intercalate_splitOn colon

theorem pieces_append (s t : GoString) : pieces (s ++ (bytes ":" ++ t)) = pieces s ++ pieces t := by
  rw [bytes_colon]
  exact List.splitOn_append_cons_self s t

theorem pieces_of_colon_free {s : GoString} (h : colon ∉ s) : pieces s = [s] :=
  List.splitOn_eq_singleton h

/-! ### Decimal numbers -/

def byte (c : Char) : UInt8 := UInt8.ofNat c.toNat

/-- `%d`. -/
def formatInt (n : ℤ) : GoString :=
  (if n < 0 then [byte '-'] else []) ++ (Nat.toDigits 10 n.natAbs).map byte

def parseNat (s : GoString) : ℕ := Nat.ofDigitChars 10 (s.map fun b => Char.ofNat b.toNat) 0

def parseInt (s : GoString) : ℤ :=
  if s.head? = some (byte '-') then -(parseNat s.tail : ℤ) else parseNat s

theorem toNat_digit {n : ℕ} {c : Char} (h : c ∈ Nat.toDigits 10 n) : 48 ≤ c.toNat ∧ c.toNat ≤ 57 :=
  Char.isDigit_iff_toNat.mp (Nat.isDigit_of_mem_toDigits (by decide) (by decide) h)

theorem toNat_byte_digit {n : ℕ} {c : Char} (h : c ∈ Nat.toDigits 10 n) :
    (byte c).toNat = c.toNat := by
  have hc := toNat_digit h
  simp only [byte, UInt8.toNat_ofNat']
  omega

theorem parseNat_digits (n : ℕ) : parseNat ((Nat.toDigits 10 n).map byte) = n := by
  have hback : ((Nat.toDigits 10 n).map byte).map (fun b => Char.ofNat b.toNat) =
      Nat.toDigits 10 n := by
    rw [List.map_map]
    refine (List.map_congr_left ?_).trans (List.map_id _)
    intro c hc
    show Char.ofNat (byte c).toNat = c
    rw [toNat_byte_digit hc, Char.ofNat_toNat]
  rw [parseNat, hback, Nat.ofDigitChars_ten_toDigits]

theorem digit_range {n : ℕ} {b : UInt8} (h : b ∈ (Nat.toDigits 10 n).map byte) :
    byte '-' < b ∧ b < colon := by
  obtain ⟨c, hc, rfl⟩ := List.mem_map.mp h
  have hrange := toNat_digit hc
  rw [UInt8.lt_iff_toNat_lt, UInt8.lt_iff_toNat_lt, toNat_byte_digit hc]
  have hsign : (byte '-').toNat = 45 := by decide
  have hcolon : colon.toNat = 58 := by decide
  omega

theorem parseInt_formatInt (n : ℤ) : parseInt (formatInt n) = n := by
  by_cases hn : n < 0
  · have hformat : formatInt n = byte '-' :: (Nat.toDigits 10 n.natAbs).map byte := by
      simp [formatInt, hn]
    rw [parseInt, hformat, List.head?_cons, if_pos rfl, List.tail_cons, parseNat_digits]
    omega
  · have hhead : ((Nat.toDigits 10 n.natAbs).map byte).head? ≠ some (byte '-') := by
      intro h
      exact UInt8.lt_irrefl _ (digit_range (List.mem_of_head? h)).1
    have hformat : formatInt n = (Nat.toDigits 10 n.natAbs).map byte := by simp [formatInt, hn]
    rw [parseInt, hformat, if_neg hhead, parseNat_digits]
    omega

theorem lt_colon_of_mem_formatInt {n : ℤ} {b : UInt8} (h : b ∈ formatInt n) : b < colon := by
  obtain hsign | hdigit := List.mem_append.mp h
  · split at hsign
    · obtain rfl := List.mem_singleton.mp hsign
      decide
    · cases hsign
  · exact (digit_range hdigit).2

theorem colon_notMem_formatInt (n : ℤ) : colon ∉ formatInt n :=
  fun h => absurd (lt_colon_of_mem_formatInt h) (by decide)

theorem formatInt_ne (n : ℤ) {s : GoString} {b : UInt8} (hb : b ∈ s) (hlarge : ¬ b < colon) :
    formatInt n ≠ s := by
  rintro rfl
  exact hlarge (lt_colon_of_mem_formatInt hb)

end GoString

open GoString

/-! ### The constructors of `keys.go` -/

/-- `Keys`. -/
structure Keys where
  nameSpace : GoString

namespace Keys

def new (nameSpace : GoString) : Keys := ⟨if nameSpace = [] then bytes "senna" else nameSpace⟩

variable (k : Keys)

/-- `prefix`: the loop adds one part after the other. -/
def prefixed (parts : List GoString) : GoString :=
  parts.foldl (fun key p => key ++ (bytes ":" ++ p)) k.nameSpace

def queue (name : GoString) : GoString := k.prefixed [bytes "queue", name]

def scheduled : GoString := k.prefixed [bytes "scheduled"]

def retry : GoString := k.prefixed [bytes "retry"]

def dead : GoString := k.prefixed [bytes "dead"]

def inFlight (workerID : GoString) : GoString := k.prefixed [bytes "inflight", workerID]

def finalization (jobID : GoString) : GoString := k.prefixed [bytes "finalization", jobID]

def workers : GoString := k.prefixed [bytes "workers"]

def worker (id : GoString) : GoString := k.prefixed [bytes "worker", id]

def stats : GoString := k.prefixed [bytes "stats"]

def queues : GoString := k.prefixed [bytes "queues"]

def batch (id : GoString) : GoString := k.prefixed [bytes "batch", id]

def batchProgress (id : GoString) : GoString := k.prefixed [bytes "batch", id, bytes "progress"]

def batchJobs (id : GoString) : GoString := k.prefixed [bytes "batch", id, bytes "jobs"]

def batchFailed (id : GoString) : GoString := k.prefixed [bytes "batch", id, bytes "failed"]

def batchCallbacks (id : GoString) : GoString := k.prefixed [bytes "batch", id, bytes "callbacks"]

def batches : GoString := k.prefixed [bytes "batches"]

def deadBatches : GoString := k.prefixed [bytes "batches", bytes "dead"]

def unique (key : GoString) : GoString := k.prefixed [bytes "unique", key]

def periodic : GoString := k.prefixed [bytes "periodic"]

def periodicLock (name : GoString) : GoString := k.prefixed [bytes "periodic", name, bytes "lock"]

def sequentialLock (queueName : GoString) : GoString :=
  k.prefixed [bytes "sequential", queueName, bytes "lock"]

def leader : GoString := k.prefixed [bytes "leader"]

def rateLimit (limiterType : GoString) (parts : List GoString) : GoString :=
  k.prefixed ([bytes "ratelimit", limiterType] ++ parts)

def iterationState (jobID : GoString) : GoString := k.prefixed [bytes "iteration", jobID]

def periodicSlotKey (name : GoString) (minuteTS : ℤ) : GoString :=
  k.periodicLock name ++ (bytes ":" ++ formatInt minuteTS)

/-- The key of `recordHistory`. -/
def historyKey (name : GoString) : GoString := k.periodicLock name ++ bytes ":history"

end Keys

/-- A key by its constructor and arguments. The keys of rate limiters are not among them: their
parts are any number of strings. -/
inductive KeyName where
  | queue (name : GoString)
  | scheduled
  | retry
  | dead
  | inFlight (workerID : GoString)
  | finalization (jobID : GoString)
  | workers
  | worker (id : GoString)
  | stats
  | queues
  | batch (id : GoString)
  | batchProgress (id : GoString)
  | batchJobs (id : GoString)
  | batchFailed (id : GoString)
  | batchCallbacks (id : GoString)
  | batches
  | deadBatches
  | unique (key : GoString)
  | periodic
  | periodicLock (name : GoString)
  | periodicSlot (name : GoString) (minuteTS : ℤ)
  | periodicHistory (name : GoString)
  | sequentialLock (queueName : GoString)
  | leader
  | iterationState (jobID : GoString)
  deriving DecidableEq

def Keys.text (k : Keys) : KeyName → GoString
  | .queue name => k.queue name
  | .scheduled => k.scheduled
  | .retry => k.retry
  | .dead => k.dead
  | .inFlight workerID => k.inFlight workerID
  | .finalization jobID => k.finalization jobID
  | .workers => k.workers
  | .worker id => k.worker id
  | .stats => k.stats
  | .queues => k.queues
  | .batch id => k.batch id
  | .batchProgress id => k.batchProgress id
  | .batchJobs id => k.batchJobs id
  | .batchFailed id => k.batchFailed id
  | .batchCallbacks id => k.batchCallbacks id
  | .batches => k.batches
  | .deadBatches => k.deadBatches
  | .unique key => k.unique key
  | .periodic => k.periodic
  | .periodicLock name => k.periodicLock name
  | .periodicSlot name minuteTS => k.periodicSlotKey name minuteTS
  | .periodicHistory name => k.historyKey name
  | .sequentialLock queueName => k.sequentialLock queueName
  | .leader => k.leader
  | .iterationState jobID => k.iterationState jobID

/-! ### Reading keys back -/

namespace KeyName

def word : KeyName → String
  | .queue _ => "queue"
  | .scheduled => "scheduled"
  | .retry => "retry"
  | .dead => "dead"
  | .inFlight _ => "inflight"
  | .finalization _ => "finalization"
  | .workers => "workers"
  | .worker _ => "worker"
  | .stats => "stats"
  | .queues => "queues"
  | .batch _ | .batchProgress _ | .batchJobs _ | .batchFailed _ | .batchCallbacks _ => "batch"
  | .batches | .deadBatches => "batches"
  | .unique _ => "unique"
  | .periodic | .periodicLock _ | .periodicSlot _ _ | .periodicHistory _ => "periodic"
  | .sequentialLock _ => "sequential"
  | .leader => "leader"
  | .iterationState _ => "iteration"

def rest : KeyName → List GoString
  | .queue s | .inFlight s | .finalization s | .worker s | .batch s | .unique s
  | .iterationState s => pieces s
  | .batchProgress id => pieces id ++ [bytes "progress"]
  | .batchJobs id => pieces id ++ [bytes "jobs"]
  | .batchFailed id => pieces id ++ [bytes "failed"]
  | .batchCallbacks id => pieces id ++ [bytes "callbacks"]
  | .deadBatches => [bytes "dead"]
  | .periodicLock s | .sequentialLock s => pieces s ++ [bytes "lock"]
  | .periodicSlot name minuteTS => pieces name ++ [bytes "lock", formatInt minuteTS]
  | .periodicHistory name => pieces name ++ [bytes "lock", bytes "history"]
  | .scheduled | .retry | .dead | .workers | .stats | .queues | .batches | .periodic
  | .leader => []

def ColonFree : KeyName → Prop
  | .batch id | .batchProgress id | .batchJobs id | .batchFailed id | .batchCallbacks id =>
    colon ∉ id
  | _ => True

end KeyName

def parseBatch : List GoString → Option KeyName
  | [id] => some (.batch id)
  | [id, s] =>
    if s = bytes "progress" then some (.batchProgress id)
    else if s = bytes "jobs" then some (.batchJobs id)
    else if s = bytes "failed" then some (.batchFailed id)
    else if s = bytes "callbacks" then some (.batchCallbacks id)
    else none
  | _ => none

def parsePeriodic (ps : List GoString) : KeyName :=
  match ps.getLast? with
  | none => .periodic
  | some last =>
    if last = bytes "lock" then .periodicLock (join ps.dropLast)
    else if last = bytes "history" then .periodicHistory (join ps.dropLast.dropLast)
    else .periodicSlot (join ps.dropLast.dropLast) (parseInt last)

def parseWord (w : GoString) (ps : List GoString) : Option KeyName :=
  if w = bytes "queue" then some (.queue (join ps))
  else if w = bytes "scheduled" then some .scheduled
  else if w = bytes "retry" then some .retry
  else if w = bytes "dead" then some .dead
  else if w = bytes "inflight" then some (.inFlight (join ps))
  else if w = bytes "finalization" then some (.finalization (join ps))
  else if w = bytes "workers" then some .workers
  else if w = bytes "worker" then some (.worker (join ps))
  else if w = bytes "stats" then some .stats
  else if w = bytes "queues" then some .queues
  else if w = bytes "batch" then parseBatch ps
  else if w = bytes "batches" then some (if ps = [] then .batches else .deadBatches)
  else if w = bytes "unique" then some (.unique (join ps))
  else if w = bytes "periodic" then some (parsePeriodic ps)
  else if w = bytes "sequential" then some (.sequentialLock (join ps.dropLast))
  else if w = bytes "leader" then some .leader
  else if w = bytes "iteration" then some (.iterationState (join ps))
  else none

def Keys.parse (k : Keys) (s : GoString) : Option KeyName :=
  match (pieces s).drop (pieces k.nameSpace).length with
  | [] => none
  | w :: ps => parseWord w ps

theorem Keys.pieces_prefixed (k : Keys) (parts : List GoString) :
    pieces (k.prefixed parts) = pieces k.nameSpace ++ parts.flatMap pieces := by
  -- for any text the loop has come to
  suffices h : ∀ key, pieces (parts.foldl (fun key p => key ++ (bytes ":" ++ p)) key) =
      pieces key ++ parts.flatMap pieces from h k.nameSpace
  induction parts with
  | nil => simp
  | cons p parts ih =>
    intro key
    rw [List.foldl_cons, ih, pieces_append]
    simp

theorem Keys.pieces_text (k : Keys) (name : KeyName) :
    pieces (k.text name) = pieces k.nameSpace ++ bytes name.word :: name.rest := by
  cases name with
  | periodicSlot name minuteTS =>
    rw [text, periodicSlotKey, pieces_append, periodicLock, pieces_prefixed,
      pieces_of_colon_free (colon_notMem_formatInt minuteTS)]
    simp (disch := decide) [KeyName.word, KeyName.rest, pieces_of_colon_free]
  | periodicHistory name =>
    have hkey : k.historyKey name = k.periodicLock name ++ (bytes ":" ++ bytes "history") := by
      rw [historyKey]
      congr 1
    rw [text, hkey, pieces_append, periodicLock, pieces_prefixed]
    simp (disch := decide) [KeyName.word, KeyName.rest, pieces_of_colon_free]
  -- the others are made of the word, the argument and at most one more word
  | _ =>
    refine (k.pieces_prefixed _).trans ?_
    simp (disch := decide) [KeyName.word, KeyName.rest, pieces_of_colon_free]

theorem parsePeriodic_slot (name : GoString) (minuteTS : ℤ) :
    parsePeriodic (pieces name ++ [bytes "lock", formatInt minuteTS]) =
      .periodicSlot name minuteTS := by
  -- 'k' and 'h' are no digits
  have hlock : formatInt minuteTS ≠ bytes "lock" :=
    formatInt_ne minuteTS (b := byte 'k') (by decide) (by decide)
  have hhistory : formatInt minuteTS ≠ bytes "history" :=
    formatInt_ne minuteTS (b := byte 'h') (by decide) (by decide)
  simp [parsePeriodic, hlock, hhistory, parseInt_formatInt]

theorem parseWord_word {name : KeyName} (h : name.ColonFree) :
    parseWord (bytes name.word) name.rest = some name := by
  cases name with
  | periodicSlot name minuteTS =>
    simp [parseWord, KeyName.word, KeyName.rest, parsePeriodic_slot]
  | batch id | batchProgress id | batchJobs id | batchFailed id | batchCallbacks id =>
    simp [parseWord, KeyName.word, KeyName.rest, parseBatch, pieces_of_colon_free h]
  | periodic | periodicLock name | periodicHistory name =>
    simp [parseWord, KeyName.word, KeyName.rest, parsePeriodic]
  | _ => simp [parseWord, KeyName.word, KeyName.rest]

namespace Keys

variable (k : Keys)

/-- **Round trip.** A key is read back as what it was built from. -/
theorem parse_text {name : KeyName} (h : name.ColonFree) : k.parse (k.text name) = some name := by
  rw [parse, k.pieces_text, List.drop_left]
  exact parseWord_word h

theorem text_injective {a b : KeyName} (ha : a.ColonFree) (hb : b.ColonFree)
    (h : k.text a = k.text b) : a = b := by
  have hparse : some a = some b := calc
    some a = k.parse (k.text a) := (k.parse_text ha).symm
    _ = k.parse (k.text b) := by rw [h]
    _ = some b := k.parse_text hb
  exact Option.some.inj hparse

/-- **Keys of rate limiters are none of the others**: no other key has their word. -/
theorem text_ne_rateLimit (name : KeyName) (limiterType : GoString) (parts : List GoString) :
    k.text name ≠ k.rateLimit limiterType parts := by
  intro heq
  have hpieces : pieces (k.rateLimit limiterType parts) =
      pieces k.nameSpace ++ bytes "ratelimit" :: (limiterType :: parts).flatMap pieces := by
    rw [rateLimit, pieces_prefixed]
    simp (disch := decide) [pieces_of_colon_free]
  rw [← heq, k.pieces_text] at hpieces
  have hword : name.word = "ratelimit" :=
    bytes_injective (List.cons.inj (List.append_cancel_left hpieces)).1
  cases name <;> simp [KeyName.word] at hword

theorem head_pieces_text (hk : colon ∉ k.nameSpace) (name : KeyName) :
    (pieces (k.text name)).head? = some k.nameSpace := by
  rw [k.pieces_text, pieces_of_colon_free hk]
  rfl

/-- **Keys never collide.** In one namespace, whatever it is, keys of different constructors and
keys of one constructor with different arguments are different strings; the arguments are any
strings, with colons or without, except for the IDs of batches, which have none. And a key of one
namespace is no key of another, as long as there is no colon in either. -/
theorem keys_never_collide :
    (∀ (k : Keys) (a b : KeyName), a.ColonFree → b.ColonFree → a ≠ b → k.text a ≠ k.text b) ∧
    ∀ (k k' : Keys) (a b : KeyName), colon ∉ k.nameSpace → colon ∉ k'.nameSpace →
      k.nameSpace ≠ k'.nameSpace → k.text a ≠ k'.text b := by
  constructor
  · intro k a b ha hb hne heq
    exact hne (k.text_injective ha hb heq)
  · intro k k' a b hk hk' hne heq
    have hhead := k.head_pieces_text hk a
    rw [heq, k'.head_pieces_text hk' b] at hhead
    exact hne (Option.some.inj hhead).symm

theorem keys_never_collide_slot :
    (new []).text (.periodicSlot (bytes "a:lock:60") 60) ≠
        (new []).text (.periodicSlot (bytes "a") 60) ∧
      (new (bytes "a")).text .retry ≠ (new (bytes "b")).text .retry :=
  ⟨keys_never_collide.1 _ _ _ trivial trivial (by decide),
    keys_never_collide.2 _ _ _ _ (by decide) (by decide) (by decide)⟩

end Keys

/-! ### The keys of the models -/

def Key.name : Key → KeyName
  | .queue name => .queue (bytes name)
  | .scheduled => .scheduled
  | .retry => .retry
  | .dead => .dead
  | .inFlight workerID => .inFlight (bytes workerID)
  | .finalization jobID => .finalization (bytes jobID)
  | .queues => .queues
  | .unique key => .unique (bytes key)
  | .sequentialLock queueName => .sequentialLock (bytes queueName)

theorem Key.text_injective (k : Keys) : Function.Injective fun key : Key => k.text key.name := by
  intro a b h
  have hname : a.name = b.name := by
    refine k.text_injective ?_ ?_ h
    · cases a <;> exact trivial
    · cases b <;> exact trivial
  cases a <;> cases b <;> injection hname <;>
    first | rfl | exact congrArg _ (bytes_injective ‹bytes _ = bytes _›)

def Periodic.Key.name : Periodic.Key → KeyName
  | .slot name minuteTS => .periodicSlot (bytes name) minuteTS
  | .queues => .queues
  | .queue name => .queue (bytes name)

theorem Periodic.Key.text_injective (k : Keys) :
    Function.Injective fun key : Periodic.Key => k.text key.name := by
  intro a b h
  have hname : a.name = b.name := by
    refine k.text_injective ?_ ?_ h
    · cases a <;> exact trivial
    · cases b <;> exact trivial
  cases a <;> cases b <;> simp_all [Periodic.Key.name]

def BatchLua.Key.name : BatchLua.Key → KeyName
  | .batch id => .batch (bytes id)
  | .progress id => .batchProgress (bytes id)
  | .jobs id => .batchJobs (bytes id)
  | .failed id => .batchFailed (bytes id)
  | .callbacks id => .batchCallbacks (bytes id)
  | .batches => .batches
  | .deadBatches => .deadBatches
  | .queues => .queues
  | .queue name => .queue (bytes name)

theorem BatchLua.Key.text_injOn (k : Keys) :
    Set.InjOn (fun key : BatchLua.Key => k.text key.name) {key | key.name.ColonFree} := by
  intro a ha b hb h
  have hname : a.name = b.name := k.text_injective ha hb h
  cases a <;> cases b <;> injection hname <;>
    first | rfl | exact congrArg _ (bytes_injective ‹bytes _ = bytes _›)

end Senna
