import Mathlib.Data.Int.Notation
import Mathlib.Data.List.Nodup
import Mathlib.Tactic.Common

/-!
# Keys that expire

A `Cell` is one key on its own: what it holds, and the millisecond at which the server may
remove it. **An absent key holds the default content and has no deadline.** So a list that is
popped empty forgets its deadline, and `EXPIRE` on an absent key does nothing: the two rules a
script with an expiring list runs into.

`Due` says that the deadline has come. When the server removes the key, at once or at some later
access, is left to whoever runs the machine.

A hash whose size and order are read (`HLEN`, `HGETALL`) is a list of fields, each field once.
-/

namespace Redis

/-- A key with what it holds and the time at which it expires, in milliseconds. -/
structure Cell (α : Type) where
  content : α
  deadline : Option ℤ
  deriving DecidableEq, Repr

namespace Cell

variable {α : Type} [Inhabited α] [DecidableEq α]

def absent : Cell α := ⟨default, none⟩

def put (c : Cell α) (x : α) : Cell α := if x = default then absent else { c with content := x }

def expireAt (c : Cell α) (t : ℤ) : Cell α :=
  if c.content = default then c else { c with deadline := some t }

omit [Inhabited α] [DecidableEq α] in
def Due (c : Cell α) (now : ℤ) : Prop := ∃ t ∈ c.deadline, t ≤ now

instance (c : Cell α) (now : ℤ) : Decidable (c.Due now) :=
  inferInstanceAs (Decidable (∃ t ∈ c.deadline, t ≤ now))

def shown (c : Cell α) (now : ℤ) : Cell α := if c.Due now then absent else c

omit [DecidableEq α] in
theorem shown_shown (c : Cell α) {now now' : ℤ} (h : now ≤ now') :
    (c.shown now).shown now' = c.shown now' := by
  by_cases hdue : c.Due now
  · obtain ⟨t, ht, hle⟩ := hdue
    have hgone : ¬ (absent : Cell α).Due now' := by
      rintro ⟨t, ⟨⟩, -⟩
    have hlater : c.Due now' := ⟨t, ht, Int.le_trans hle h⟩
    have hnow : c.Due now := ⟨t, ht, hle⟩
    simp only [shown, if_pos hnow, if_neg hgone, if_pos hlater]
  · rw [shown, shown, if_neg hdue]
    rfl

@[simp] theorem content_put (c : Cell α) (x : α) : (c.put x).content = x := by
  unfold put
  split
  · next hx => exact hx.symm
  · rfl

@[simp] theorem content_expireAt (c : Cell α) (t : ℤ) : (c.expireAt t).content = c.content := by
  unfold expireAt
  split <;> rfl

theorem mem_deadline_put {c : Cell α} {x : α} {t : ℤ} (h : t ∈ (c.put x).deadline) :
    t ∈ c.deadline := by
  unfold put at h
  split at h
  · cases h
  · exact h

theorem deadline_expireAt {c : Cell α} (hc : c.content ≠ default) (t : ℤ) :
    (c.expireAt t).deadline = some t := by
  rw [expireAt, if_neg hc]

end Cell

/-! ### Hashes -/

/-- The fields of a hash with their values, in the order `HGETALL` lists them. -/
abbrev Hash (β : Type) := List (String × β)

namespace Hash

variable {β : Type}

/-- The names of the fields. -/
abbrev fields (h : Hash β) : List String := h.map Prod.fst

def hset (h : Hash β) (f : String) (v : β) : Hash β :=
  if f ∈ h.fields then h.map fun e => if e.1 = f then (f, v) else e else h ++ [(f, v)]

def hdel (h : Hash β) (f : String) : Hash β := h.filter fun e => e.1 ≠ f

variable {h : Hash β} {f : String}

theorem hset_of_not_mem (hf : f ∉ h.fields) (v : β) :
    h.hset f v = h ++ [(f, v)] := if_neg hf

theorem mem_hdel {e : String × β} : e ∈ h.hdel f ↔ e ∈ h ∧ e.1 ≠ f := by
  simp [hdel]

theorem mem_fields : f ∈ h.fields ↔ ∃ v, (f, v) ∈ h := by
  simp [fields]

theorem mem_fields_hdel {g : String} (hg : g ∈ h.fields) (hne : g ≠ f) :
    g ∈ (h.hdel f).fields := by
  obtain ⟨v, hv⟩ := mem_fields.mp hg
  exact mem_fields.mpr ⟨v, mem_hdel.mpr ⟨hv, hne⟩⟩

theorem length_hdel (hh : h.fields.Nodup) (hf : f ∈ h.fields) :
    (h.hdel f).length + 1 = h.length := by
  induction h with
  | nil => cases hf
  | cons e h ih =>
    obtain ⟨hnot, hrest⟩ := List.nodup_cons.mp hh
    by_cases he : e.1 = f
    · -- No other field has this name.
      have hsame : hdel h f = h := by
        refine List.filter_eq_self.mpr fun x hx => decide_eq_true ?_
        rintro rfl
        exact hnot (he ▸ List.mem_map_of_mem hx)
      have hdrop : hdel (e :: h) f = hdel h f := List.filter_cons_of_neg (by simp [he])
      rw [hdrop, hsame, List.length_cons]
    · have hf' : f ∈ fields h := by
        obtain hf | hf := List.mem_cons.mp hf
        · exact absurd hf.symm he
        · exact hf
      have hkeep : hdel (e :: h) f = e :: hdel h f := List.filter_cons_of_pos (by simp [he])
      rw [hkeep, List.length_cons, List.length_cons, ih hrest hf']

end Hash

end Redis
