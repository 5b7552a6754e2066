import Senna.Ratelimit.Clock
import Senna.Redis.Command
import Senna.Redis.Expiring
import Senna.System.Machine
import Senna.System.Metering

/-!
# The sliding-window limiter

`ratelimit/window.go` and `window.lua`. The key is a sorted set with one member for each admitted
call, scored with the time of the call. Every call first removes what has left the window and then
counts the rest.

Three others take members out of the set: `Remaining` prunes it too, from Go, with a time that it
has read by an earlier command; and the server removes the whole key when its lifetime is over.
**Neither removes anything that still counts**, so the set holds exactly what it should: everything
admitted less than a window ago (`Faithful.recent`), and nothing that was not admitted
(`Faithful.stored`). The bound for every span then is a fact about such logs
(`Metering.Sparse.length_filter_le`).

A label runs one command or script of some process; what was admitted is recorded beside the key,
and no script reads it.
-/

namespace Senna.Ratelimit.Window

open Redis Metering

/-! ### The script -/

/-- What the instances of one limiter name share. -/
structure WindowLimiter where
  limit : ℤ
  /-- A Go duration: nanoseconds. -/
  interval : ℤ

def WindowLimiter.windowUs (l : WindowLimiter) : ℤ := spanUs l.interval

/-- The key: the members of the window with their scores. -/
abbrev Key := Cell (List (String × ℤ))

/-- `window.lua`. Returns whether the call is admitted, the number of members, and how long to
wait. -/
def window (limit windowUs : ℤ) (member : String) (ttl : ℤ) (clock : ℕ) (key : Key) :
    (ℤ × ℤ × ℤ) × Key :=
  let nowUs := nowUs clock
  let key := key.put (zremrange key.content (nowUs - windowUs))
  let count : ℤ := key.content.length
  if count ≥ limit then
    match zfirst key.content with
    | some oldest =>
      let retryInUs := oldest.2 + windowUs - nowUs
      ((0, count, if retryInUs < 0 then 0 else retryInUs), key)
    | none => ((0, count, windowUs), key)
  else
    let key := key.put (zinsert key.content member nowUs)
    ((1, count + 1, 0), key.expireAt (lapse clock ttl))

def kept (windowUs : ℤ) (clock : ℕ) (key : Key) : List (String × ℤ) :=
  zremrange key.content (clock - windowUs)

/-- **The two outcomes.** A call that is refused is told to wait for some time, and not longer than
the window if nothing is in the future. -/
theorem window_cases (limit : ℤ) {windowUs : ℤ} (hwindow : 0 < windowUs) (member : String) (ttl : ℤ)
    (clock : ℕ) (key : Key) :
    (limit ≤ (kept windowUs clock key).length ∧ ∃ wait : ℤ, 0 < wait ∧
      ((∀ e ∈ key.content, e.2 ≤ clock) → wait ≤ windowUs) ∧
      window limit windowUs member ttl clock key =
        ((0, ((kept windowUs clock key).length : ℤ), wait), key.put (kept windowUs clock key))) ∨
    ((kept windowUs clock key).length < limit ∧
      window limit windowUs member ttl clock key =
        ((1, ((kept windowUs clock key).length : ℤ) + 1, 0),
          ((key.put (kept windowUs clock key)).put
            (zinsert (kept windowUs clock key) member clock)).expireAt (lapse clock ttl))) := by
  simp only [window, nowUs_eq, ge_iff_le, Cell.content_put]
  rw [show zremrange key.content (clock - windowUs) = kept windowUs clock key from rfl]
  by_cases hfull : limit ≤ (kept windowUs clock key).length
  · refine Or.inl ⟨hfull, ?_⟩
    rw [if_pos hfull]
    cases hfirst : zfirst (kept windowUs clock key) with
    | none => exact ⟨windowUs, hwindow, fun _ => le_rfl, rfl⟩
    | some oldest =>
      -- What is left has not left the window.
      obtain ⟨hmem, hscore⟩ := List.mem_filter.mp (mem_of_zfirst hfirst)
      have hscore : (clock : ℤ) - windowUs < oldest.2 := of_decide_eq_true hscore
      have hwait : 0 < oldest.2 + windowUs - clock := by omega
      refine ⟨oldest.2 + windowUs - clock, hwait, fun hpast => ?_, ?_⟩
      · have hle := hpast oldest hmem
        omega
      · dsimp only
        rw [if_neg hwait.not_gt]
  · refine Or.inr ⟨not_le.mp hfull, ?_⟩
    rw [if_neg hfull]

/-! ### The limiter as a machine -/

/-- A call that was admitted. -/
structure Admission where
  member : String
  /-- The clock of the call, in microseconds. -/
  time : ℕ
  deriving DecidableEq, Repr

def Admission.entry (a : Admission) : String × ℤ := (a.member, a.time)

/-- One limiter name, with every call that was admitted. -/
structure World where
  clock : ℕ
  key : Key
  /-- The bounds `Remaining` has computed and not used yet. -/
  bounds : List ℤ
  admitted : List Admission

def World.init : World := ⟨0, .absent, [], []⟩

inductive Event where
  | tick (d : ℕ)
  /-- A run of the script, with a new member. -/
  | call (member : String)
  /-- `Remaining` reads the clock. -/
  | readTime
  /-- `Remaining` removes what is at most at its bound. -/
  | prune (bound : ℤ)
  | expire
  deriving DecidableEq, Repr

namespace World

variable (l : WindowLimiter)

def call (s : World) (member : String) : (ℤ × ℤ × ℤ) × Key :=
  window l.limit l.windowUs member (ttlSeconds l.windowUs) s.clock s.key

theorem call_cases (s : World) (member : String) :
    (l.limit ≤ (kept l.windowUs s.clock s.key).length ∧ ∃ wait : ℤ, 0 < wait ∧
      ((∀ e ∈ s.key.content, e.2 ≤ s.clock) → wait ≤ l.windowUs) ∧
      s.call l member = ((0, ((kept l.windowUs s.clock s.key).length : ℤ), wait),
        s.key.put (kept l.windowUs s.clock s.key))) ∨
    ((kept l.windowUs s.clock s.key).length < l.limit ∧
      s.call l member = ((1, ((kept l.windowUs s.clock s.key).length : ℤ) + 1, 0),
        ((s.key.put (kept l.windowUs s.clock s.key)).put
          (zinsert (kept l.windowUs s.clock s.key) member s.clock)).expireAt
            (lapse s.clock (ttlSeconds l.windowUs)))) :=
  window_cases l.limit (spanUs_pos l.interval) member _ _ _

def step (s : World) : Event → World
  | .tick d => { s with clock := s.clock + d }
  | .call member =>
    let (reply, key) := s.call l member
    { s with
      key
      admitted := if reply.1 = 1 then ⟨member, s.clock⟩ :: s.admitted else s.admitted }
  | .readTime => { s with bounds := (nowUs s.clock - l.windowUs) :: s.bounds }
  | .prune bound => { s with key := s.key.put (zremrange s.key.content bound) }
  | .expire => { s with key := .absent }

theorem step_call (s : World) (member : String) :
    s.step l (.call member) =
      { s with
        key := (s.call l member).2
        admitted := if (s.call l member).1.1 = 1 then ⟨member, s.clock⟩ :: s.admitted
          else s.admitted } := rfl

/-- Members are new, a bound was computed before it is used, and the key is removed after its
lifetime. -/
def Permits (s : World) : Event → Prop
  | .call member => ∀ a ∈ s.admitted, a.member ≠ member
  | .prune bound => bound ∈ s.bounds
  | .expire => s.key.Due (nowMs s.clock)
  | _ => True

instance (s : World) : DecidablePred s.Permits
  | .call member => inferInstanceAs (Decidable (∀ a ∈ s.admitted, a.member ≠ member))
  | .prune bound => inferInstanceAs (Decidable (bound ∈ s.bounds))
  | .expire => inferInstanceAs (Decidable (s.key.Due (nowMs s.clock)))
  | .tick _ | .readTime => inferInstanceAs (Decidable True)

end World

def machine (l : WindowLimiter) : Machine World Event where
  permits := World.Permits
  step := World.step l

instance (l : WindowLimiter) (s : World) (e : Event) : Decidable ((machine l).permits s e) :=
  inferInstanceAs (Decidable (s.Permits e))

/-! ### The set is the window -/

variable {l : WindowLimiter} {s : World}

/-- The key and the calls that were admitted. -/
structure Faithful (l : WindowLimiter) (s : World) : Prop where
  members : (s.admitted.map Admission.member).Nodup
  past : ∀ a ∈ s.admitted, a.time ≤ s.clock
  /-- Nothing is in the set that was not admitted. -/
  stored : s.key.content ⊆ s.admitted.map Admission.entry
  nodup : s.key.content.Nodup
  /-- What was admitted less than a window ago is in the set. -/
  recent : ∀ a ∈ s.admitted, (s.clock : ℤ) - l.windowUs < a.time → a.entry ∈ s.key.content
  /-- The lifetime of the key started no earlier than its last member. -/
  deadline : ∀ t ∈ s.key.deadline, ∀ e ∈ s.key.content, ∀ a ∈ s.admitted, a.entry = e →
    lapse a.time (ttlSeconds l.windowUs) ≤ t
  bounds : ∀ b ∈ s.bounds, b ≤ s.clock - l.windowUs
  sparse : Sparse l.windowUs l.limit (s.admitted.map fun a => (a.time : ℤ))

namespace Faithful

theorem init (l : WindowLimiter) : Faithful l .init where
  members := List.nodup_nil
  past := fun _ h => absurd h List.not_mem_nil
  stored := List.nil_subset _
  nodup := List.nodup_nil
  recent := fun _ h => absurd h List.not_mem_nil
  deadline := fun _ h => absurd h (Option.not_mem_none _)
  bounds := fun _ h => absurd h List.not_mem_nil
  sparse := trivial

variable (h : Faithful l s)

include h

theorem nodup_entries : (s.admitted.map Admission.entry).Nodup := by
  refine List.Nodup.of_map Prod.fst ?_
  rw [List.map_map]
  exact h.members

/-- **Pruning what has left the window changes nothing that counts.** -/
theorem prune {bound : ℤ} (hbound : bound ≤ s.clock - l.windowUs) :
    Faithful l { s with key := s.key.put (zremrange s.key.content bound) } where
  members := h.members
  past := h.past
  stored := by
    intro e he
    rw [Cell.content_put] at he
    exact h.stored (List.mem_of_mem_filter he)
  nodup := by
    rw [Cell.content_put]
    exact h.nodup.filter _
  recent := fun a ha hrecent => by
    rw [Cell.content_put]
    refine List.mem_filter.mpr ⟨h.recent a ha hrecent, decide_eq_true ?_⟩
    exact lt_of_le_of_lt hbound hrecent
  deadline := fun t ht e he => by
    rw [Cell.content_put] at he
    exact h.deadline t (Cell.mem_deadline_put ht) e (List.mem_of_mem_filter he)
  bounds := h.bounds
  sparse := h.sparse

theorem count_eq :
    (kept l.windowUs s.clock s.key).length =
      (s.admitted.filter fun a => (s.clock : ℤ) - l.windowUs < a.time).length := by
  -- Both are duplicate-free, with the same elements.
  have hperm : (kept l.windowUs s.clock s.key).Perm
      ((s.admitted.filter fun a => (s.clock : ℤ) - l.windowUs < a.time).map Admission.entry) := by
    refine (List.perm_ext_iff_of_nodup (h.nodup.filter _)
      (h.nodup_entries.sublist (List.filter_sublist.map _))).mpr fun e => ?_
    constructor
    · intro he
      obtain ⟨hstored, hscore⟩ := List.mem_filter.mp he
      obtain ⟨a, ha, rfl⟩ := List.mem_map.mp (h.stored hstored)
      exact List.mem_map_of_mem (List.mem_filter.mpr ⟨ha, hscore⟩)
    · intro he
      obtain ⟨a, ha, rfl⟩ := List.mem_map.mp he
      obtain ⟨hadmitted, hrecent⟩ := List.mem_filter.mp ha
      exact List.mem_filter.mpr ⟨h.recent a hadmitted (of_decide_eq_true hrecent), hrecent⟩
  rw [hperm.length_eq, List.length_map]

/-- **A new member.** It is added when there is room in the window. -/
theorem admitOne {member : String} (hnew : ∀ a ∈ s.admitted, a.member ≠ member)
    (hroom : ((s.admitted.filter fun a => (s.clock : ℤ) - l.windowUs < a.time).length : ℤ) <
      l.limit) :
    Faithful l { s with
      key := (s.key.put (zinsert s.key.content member s.clock)).expireAt
        (lapse s.clock (ttlSeconds l.windowUs))
      admitted := ⟨member, s.clock⟩ :: s.admitted } := by
  have hinsert :
      zinsert s.key.content member s.clock = (member, (s.clock : ℤ)) :: s.key.content := by
    rw [zinsert, List.filter_eq_self.mpr]
    intro e he
    obtain ⟨a, ha, rfl⟩ := List.mem_map.mp (h.stored he)
    exact decide_eq_true (hnew a ha)
  have hcontent : ((s.key.put (zinsert s.key.content member s.clock)).expireAt
      (lapse s.clock (ttlSeconds l.windowUs))).content =
        (member, (s.clock : ℤ)) :: s.key.content := by
    rw [Cell.content_expireAt, Cell.content_put, hinsert]
  have hfresh : (member, (s.clock : ℤ)) ∉ s.key.content := by
    intro hmem
    obtain ⟨a, ha, heq⟩ := List.mem_map.mp (h.stored hmem)
    exact hnew a ha (congrArg Prod.fst heq)
  refine ⟨?_, ?_, ?_, ?_, ?_, ?_, h.bounds, ?_⟩
  · refine List.nodup_cons.mpr ⟨fun hmem => ?_, h.members⟩
    obtain ⟨a, ha, heq⟩ := List.mem_map.mp hmem
    exact hnew a ha heq
  · intro a ha
    obtain rfl | ha := List.mem_cons.mp ha
    · exact le_rfl
    · exact h.past a ha
  · rw [hcontent, List.map_cons]
    exact List.cons_subset_cons _ h.stored
  · rw [hcontent]
    exact List.nodup_cons.mpr ⟨hfresh, h.nodup⟩
  · intro a ha hrecent
    rw [hcontent]
    obtain rfl | ha := List.mem_cons.mp ha
    · exact List.mem_cons_self
    · exact List.mem_cons_of_mem _ (h.recent a ha hrecent)
  · -- The lifetime starts again now.
    intro t ht e he a ha hae
    have hdeadline := Cell.deadline_expireAt (c := s.key.put (zinsert s.key.content member s.clock))
      (by rw [Cell.content_put, hinsert]; exact List.cons_ne_nil _ _)
      (lapse s.clock (ttlSeconds l.windowUs))
    rw [hdeadline] at ht
    obtain rfl := Option.some.inj ht
    refine lapse_mono ?_ _
    obtain rfl | ha := List.mem_cons.mp ha
    · exact le_rfl
    · exact h.past a ha
  · refine ⟨fun u hu => ?_, ?_, h.sparse⟩
    · obtain ⟨a, ha, rfl⟩ := List.mem_map.mp hu
      exact Int.ofNat_le.mpr (h.past a ha)
    · rw [List.filter_map, List.length_map]
      exact hroom

/-- **The key expires when the window is empty.** -/
theorem expire (hdue : s.key.Due (nowMs s.clock)) : Faithful l { s with key := .absent } where
  members := h.members
  past := h.past
  stored := List.nil_subset _
  nodup := List.nodup_nil
  recent := fun a ha hrecent => by
    obtain ⟨t, ht, hle⟩ := hdue
    have hlapse := h.deadline t ht _ (h.recent a ha hrecent) a ha rfl
    have hover := add_span_le_of_lapse (hlapse.trans hle)
    change (s.clock : ℤ) - l.windowUs < a.time at hrecent
    omega
  deadline := fun _ ht => absurd ht (Option.not_mem_none _)
  bounds := h.bounds
  sparse := h.sparse

theorem call {member : String} (hnew : ∀ a ∈ s.admitted, a.member ≠ member) :
    Faithful l (s.step l (.call member)) := by
  have hpruned := @prune l s h _ le_rfl
  rw [World.step_call]
  obtain ⟨-, wait, -, -, hcall⟩ | ⟨hroom, hcall⟩ := s.call_cases l member
  · -- Refused: only the pruning remains.
    rw [hcall, if_neg (show (0 : ℤ) ≠ 1 by decide)]
    exact hpruned
  · rw [h.count_eq] at hroom
    rw [hcall, if_pos rfl]
    have hadmitted := hpruned.admitOne hnew hroom
    rw [Cell.content_put] at hadmitted
    exact hadmitted

theorem step {e : Event} (he : (machine l).permits s e) : Faithful l ((machine l).step s e) := by
  cases e with
  | tick d =>
    have hle : (s.clock : ℤ) ≤ (s.clock + d : ℕ) := by omega
    refine ⟨h.members, fun a ha => (h.past a ha).trans (Nat.le_add_right _ _), h.stored, h.nodup,
      fun a ha hrecent => h.recent a ha ?_, h.deadline, fun b hb => ?_, h.sparse⟩
    · exact lt_of_le_of_lt (sub_le_sub_right hle _) hrecent
    · exact (h.bounds b hb).trans (sub_le_sub_right hle _)
  | call member => exact h.call he
  | readTime =>
    refine ⟨h.members, h.past, h.stored, h.nodup, h.recent, h.deadline, fun b hb => ?_, h.sparse⟩
    obtain rfl | hb := List.mem_cons.mp hb
    · exact (congrArg (· - l.windowUs) (nowUs_eq s.clock)).le
    · exact h.bounds b hb
  | prune bound => exact h.prune (h.bounds bound he)
  | expire => exact h.expire he

end Faithful

def World.count (s : World) (S : ℤ → Bool) : ℕ := (s.admitted.filter fun a => S a.time).length

/-- **The window limiter never admits too many, and refuses only what it must.** After every run of
the limiter, every half-open span of the length of the window holds at most `limit` admitted calls,
whichever end it includes; and a call that is refused finds that `limit` calls were admitted within
the preceding window. -/
theorem window_admits_limit (l : WindowLimiter) (hlimit : 0 ≤ l.limit) {es : List Event}
    (legal : (machine l).Legal .init es) :
    (∀ a : ℤ,
      (((machine l).run .init es).count fun t => a ≤ t ∧ t < a + l.windowUs) ≤ l.limit ∧
      (((machine l).run .init es).count fun t => a < t ∧ t ≤ a + l.windowUs) ≤ l.limit) ∧
    ∀ member, (machine l).permits ((machine l).run .init es) (.call member) →
      (((machine l).run .init es).call l member).1.1 ≠ 1 →
      l.limit ≤ (((machine l).run .init es).count fun t =>
        (((machine l).run .init es).clock : ℤ) - l.windowUs < t ∧
          t ≤ ((machine l).run .init es).clock) := by
  have h : Faithful l ((machine l).run .init es) := legal.invariant (fun _ _ h he => h.step he)
    (.init l)
  generalize (machine l).run .init es = s at h ⊢
  have hshort {S : ℤ → Prop} [DecidablePred S] (hS : ∀ x y, S x → S y → y - x < l.windowUs) :
      (s.count fun t => S t : ℤ) ≤ l.limit := by
    have hle := h.sparse.length_filter_le hlimit hS
    rwa [List.filter_map, List.length_map] at hle
  refine ⟨fun a => ⟨hshort ?_, hshort ?_⟩, fun member he hrefused => ?_⟩
  · rintro x y ⟨hx, -⟩ ⟨-, hy⟩
    omega
  · rintro x y ⟨hx, -⟩ ⟨-, hy⟩
    omega
  · -- A refused call has counted `limit` members.
    have hcount : (s.count fun t => (s.clock : ℤ) - l.windowUs < t ∧ t ≤ s.clock) =
        (kept l.windowUs s.clock s.key).length := by
      rw [h.count_eq]
      refine congrArg List.length (List.filter_congr fun a ha => ?_)
      have hpast := h.past a ha
      simp [hpast]
    rw [hcount]
    obtain ⟨hfull, -⟩ | ⟨-, hcall⟩ := s.call_cases l member
    · exact hfull
    · exact absurd (congrArg (·.1.1) hcall) hrefused

def thrice : List Event := [.call "a", .tick 1, .call "b", .tick 1, .call "c"]

theorem thrice_within_limit :
    (machine ⟨1, 2000⟩).Legal .init thrice ∧
      ((machine ⟨1, 2000⟩).run .init thrice).admitted = [⟨"c", 2⟩, ⟨"a", 0⟩] ∧
      (((machine ⟨1, 2000⟩).run .init thrice).count fun t => 0 ≤ t ∧ t < 0 + 2) ≤ 1 := by
  have hwindow : (WindowLimiter.mk 1 2000).windowUs = 2 := by decide
  have hspan := ((@window_admits_limit ⟨1, 2000⟩ (by decide) thrice (by decide)).1 0).1
  rw [hwindow] at hspan
  exact ⟨by decide, by decide, Int.ofNat_le.mp hspan⟩

end Senna.Ratelimit.Window
