import Mathlib.Algebra.Group.Pi.Basic
import Mathlib.Algebra.GroupWithZero.Nat
import Mathlib.Algebra.Order.Group.Multiset
import Senna.Worker.Stock

/-!
# How many copies of a job there are

`copies st id` counts the payloads of a job at every key. That there is no copy is
`copies st id = 0`, and that there is exactly one, at a key, is
`copies st id = Pi.single k 1`: both are equations between functions, so a job that is
moved is one equation after another. The lemmas say what the operations of the `Stock`
do to the count. With at most one copy around (`Single`), taking a copy out leaves none.

`Evolves` is what a step that creates no job can do to a count: nothing, move the one
copy, or lose it. It composes, which is how the two scripts that handle many jobs at once
are treated.
-/

namespace Senna

namespace Stock

def copies (st : Stock) (id : String) (k : Key) : ℕ :=
  (st.stored k).countP fun p => payloadID p = some id

def Single (st : Stock) (id : String) : Prop :=
  st.copies id = 0 ∨ ∃ k, st.copies id = Pi.single k 1

variable {st : Stock} {id : String} {k k' : Key} {p p' : String}

theorem copies_eq_zero : st.copies id = 0 ↔ ∀ k, ∀ p ∈ st.stored k, payloadID p ≠ some id := by
  rw [funext_iff]
  exact forall_congr' fun k => Multiset.countP_eq_zero

theorem copies_pos (hp : p ∈ st.stored k) (hid : payloadID p = some id) : 0 < st.copies id k :=
  Multiset.countP_pos.mpr ⟨p, hp, hid⟩

@[simp] theorem copies_trust (id' : String) (o : Option String) :
    (st.trust id' o).copies id = st.copies id := rfl

theorem copies_put :
    (st.put k p).copies id =
      st.copies id + Pi.single k (if payloadID p = some id then 1 else 0) := by
  funext k'
  by_cases hk : k' = k
  · subst hk
    simp [copies, Multiset.countP_cons]
  · simp [copies, hk]

theorem copies_put_other (hid : payloadID p ≠ some id) : (st.put k p).copies id = st.copies id := by
  rw [copies_put, if_neg hid, Pi.single_zero, add_zero]

theorem copies_put_self (hzero : st.copies id = 0) (hid : payloadID p = some id) :
    (st.put k p).copies id = Pi.single k 1 := by
  rw [copies_put, if_pos hid, hzero, zero_add]

theorem copies_take_other (hid : payloadID p ≠ some id) :
    (st.take k p).copies id = st.copies id := by
  funext k'
  by_cases hk : k' = k
  · subst hk
    simp only [copies, stored_take, if_true]
    by_cases hp : p ∈ st.stored k'
    · conv_rhs => rw [← Multiset.cons_erase hp, Multiset.countP_cons, if_neg hid, add_zero]
    · rw [Multiset.erase_of_notMem hp]
  · simp [copies, hk]

theorem copies_drop_zero (hzero : st.copies id = 0) : (st.drop k p).copies id = 0 := by
  rw [copies_eq_zero] at hzero ⊢
  intro k' p' hp'
  refine hzero k' p' ?_
  rw [stored_drop] at hp'
  split at hp'
  · next hk => rw [hk]; exact (Multiset.mem_filter.mp hp').1
  · exact hp'

theorem Single.copies_eq (h : st.Single id) (hp : p ∈ st.stored k) (hid : payloadID p = some id) :
    st.copies id = Pi.single k 1 := by
  have hpos := copies_pos hp hid
  obtain hzero | ⟨k', hone⟩ := h
  · rw [hzero] at hpos
    exact absurd hpos (lt_irrefl _)
  · rw [hone] at hpos ⊢
    by_cases hk : k = k'
    · rw [hk]
    · rw [Pi.single_eq_of_ne hk] at hpos
      exact absurd hpos (lt_irrefl _)

theorem Single.eq_of_mem (h : st.Single id) (hp : p ∈ st.stored k) (hid : payloadID p = some id)
    (hp' : p' ∈ st.stored k') (hid' : payloadID p' = some id) : k' = k ∧ p' = p := by
  have hone := h.copies_eq hp hid
  have hk : k' = k := by
    by_contra hk
    have hpos := copies_pos hp' hid'
    rw [hone, Pi.single_eq_of_ne hk] at hpos
    exact lt_irrefl _ hpos
  subst hk
  refine ⟨rfl, ?_⟩
  by_contra hne
  -- Two payloads that differ count for two.
  have hmem : p' ∈ (st.stored k').erase p := (Multiset.mem_erase_of_ne hne).mpr hp'
  have htwo : st.copies id k' = Multiset.countP (fun p => payloadID p = some id)
      ((st.stored k').erase p) + 1 := by
    rw [copies]
    conv_lhs => rw [← Multiset.cons_erase hp, Multiset.countP_cons, if_pos hid]
  have hpos : 0 < Multiset.countP (fun p => payloadID p = some id) ((st.stored k').erase p) :=
    Multiset.countP_pos.mpr ⟨p', hmem, hid'⟩
  rw [hone, Pi.single_eq_same] at htwo
  omega

theorem Single.copies_take (h : st.Single id) (hp : p ∈ st.stored k) (hid : payloadID p = some id) :
    (st.take k p).copies id = 0 := by
  have hone := h.copies_eq hp hid
  funext k'
  have hk' := congrFun hone k'
  by_cases hk : k' = k
  · subst hk
    rw [copies, ← Multiset.cons_erase hp, Multiset.countP_cons, if_pos hid,
      Pi.single_eq_same] at hk'
    simpa [copies] using hk'
  · rw [Pi.single_eq_of_ne hk] at hk'
    simpa [copies, hk] using hk'

theorem Single.count_le (h : st.Single id) (hid : payloadID p = some id) :
    (st.stored k).count p ≤ 1 := by
  by_contra hmany
  have hp : p ∈ st.stored k := Multiset.count_pos.mp (by omega)
  have hgone := copies_eq_zero.mp (h.copies_take hp hid) k p
  rw [stored_take, if_pos rfl] at hgone
  refine hgone (Multiset.count_pos.mp ?_) hid
  rw [Multiset.count_erase_self]
  omega

theorem Single.drop_eq_take (h : st.Single id) (hid : payloadID p = some id) :
    st.drop k p = st.take k p := by
  have hcount : (st.stored k).count p ≤ 1 := h.count_le hid
  refine Stock.ext (fun k' => ?_) fun _ => rfl
  rw [stored_drop, stored_take]
  split
  · ext p'
    by_cases hp' : p' = p
    · subst hp'
      rw [Multiset.count_erase_self, Multiset.count_filter, if_neg fun h => h rfl]
      omega
    · rw [Multiset.count_erase_of_ne hp', Multiset.count_filter, if_pos hp']
  · rfl

/-! ### What can become of a job -/

/-- A count changes without a new job: it stays as it is, or the one copy moves, or it is lost
(which the first argument has to allow). -/
def Evolves (lossy : Prop) (c c' : Key → ℕ) : Prop :=
  c' = c ∨ (∃ k, c = Pi.single k 1) ∧ ((∃ k', c' = Pi.single k' 1) ∨ lossy ∧ c' = 0)

namespace Evolves

variable {lossy lossy' : Prop} {c c' c'' : Key → ℕ}

theorem refl : Evolves lossy c c := Or.inl rfl

theorem single_ne_zero (k : Key) : (Pi.single k 1 : Key → ℕ) ≠ 0 := by
  intro h
  have hk := congrFun h k
  rw [Pi.single_eq_same] at hk
  exact one_ne_zero hk

theorem trans (h : Evolves lossy c c') (h' : Evolves lossy c' c'') : Evolves lossy c c'' := by
  obtain rfl | ⟨hc, hmoved⟩ := h
  · exact h'
  · obtain rfl | ⟨⟨k, hk⟩, hmoved'⟩ := h'
    · exact Or.inr ⟨hc, hmoved⟩
    · exact Or.inr ⟨hc, hmoved'⟩

theorem mono (h : Evolves lossy c c') (hlossy : lossy → lossy') : Evolves lossy' c c' := by
  obtain rfl | ⟨hc, hmoved | ⟨hl, hzero⟩⟩ := h
  · exact refl
  · exact Or.inr ⟨hc, Or.inl hmoved⟩
  · exact Or.inr ⟨hc, Or.inr ⟨hlossy hl, hzero⟩⟩

theorem zero (h : Evolves lossy 0 c') : c' = 0 := by
  obtain rfl | ⟨⟨k, hk⟩, -⟩ := h
  · rfl
  · exact absurd hk.symm (single_ne_zero k)

theorem single (h : Evolves lossy c c') (hc : c = 0 ∨ ∃ k, c = Pi.single k 1) :
    c' = 0 ∨ ∃ k, c' = Pi.single k 1 := by
  obtain rfl | ⟨-, hmoved | ⟨-, hzero⟩⟩ := h
  · exact hc
  · exact Or.inr hmoved
  · exact Or.inl hzero

theorem kept (h : Evolves lossy c c') (hlossy : ¬ lossy) (hc : ∃ k, c = Pi.single k 1) :
    ∃ k, c' = Pi.single k 1 := by
  obtain rfl | ⟨-, hmoved | ⟨hl, -⟩⟩ := h
  · exact hc
  · exact hmoved
  · exact absurd hl hlossy

end Evolves

theorem evolves_move (hsingle : ∀ id, st.Single id) {owner : String} (hp : p ∈ st.stored k)
    (hid : payloadID p = some owner) (hid' : payloadID p' = some owner) :
    Evolves False (st.copies id) (((st.take k p).put k' p').copies id) := by
  by_cases howner : owner = id
  · subst howner
    have hgone := (hsingle owner).copies_take hp hid
    exact Or.inr ⟨⟨k, (hsingle owner).copies_eq hp hid⟩, Or.inl ⟨k', copies_put_self hgone hid'⟩⟩
  · have hother : ∀ {p : String}, payloadID p = some owner → payloadID p ≠ some id := by
      intro p hp heq
      exact howner (Option.some.inj (hp.symm.trans heq))
    rw [copies_put_other (hother hid'), copies_take_other (hother hid)]
    exact .refl

theorem evolves_take (hsingle : ∀ id, st.Single id) {owner : String} (hp : p ∈ st.stored k)
    (hid : payloadID p = some owner) :
    Evolves (owner = id) (st.copies id) ((st.take k p).copies id) := by
  by_cases howner : owner = id
  · subst howner
    exact Or.inr ⟨⟨k, (hsingle owner).copies_eq hp hid⟩,
      Or.inr ⟨rfl, (hsingle owner).copies_take hp hid⟩⟩
  · rw [copies_take_other fun heq => howner (Option.some.inj (hid.symm.trans heq))]
    exact .refl

end Stock

end Senna
