import Senna.Worker.Script

/-!
# Promotion

`enqueueFromZSet` moves what is due from the scheduled or the retry set to the queues. It calls
`enqueue_scheduled.lua` for pages of a hundred members until a call says that it has enqueued
nothing. The script takes a page off the set as a whole: members that are no jobs are dropped.

All the calls together work on one list, the due members in the order of the set (`due`): a call
takes the first hundred off and leaves the rest (`due_dropMembers`). So **the loop drains what is
due up to the first page without a job**. If that is the last page, nothing is left. If not, the
call has taken the page off and enqueued nothing, and the loop ends although more is due.

The time does not change, and nobody else writes. Scores are integers; only their order matters.
-/

namespace Senna

open Redis

namespace Promotion

def enqueueFromZSet (cj : Cjson) (k : Key) (now : ℤ) : ℕ → Db Key → Option (Outcome Key Unit)
  | 0, _ => none
  | rounds + 1, db =>
    match (enqueueScheduled cj k 100 now).run db with
    | .error e db' => some (.error e db')
    | .ok count db' =>
      if count = 0 then some (.ok () db') else enqueueFromZSet cj k now rounds db'

def due (z : List (String × ℤ)) (now : ℤ) : List (String × ℤ) :=
  (z.filter fun e => e.2 ≤ now).insertionSort zle

def jobsFor (cj : Cjson) (queue : String) (entries : List (String × ℤ)) : List (String × ℤ) :=
  entries.filter fun e => (dueTarget cj e.1).any (·.queue = queue)

/-! ### What is due -/

section Due

variable {cj : Cjson} {z : List (String × ℤ)} {now : ℤ}

theorem zrange_eq (z : List (String × ℤ)) (now : ℤ) (limit : ℕ) :
    zrange z now limit = ((due z now).take limit).map Prod.fst := rfl

theorem mem_due {e : String × ℤ} : e ∈ due z now ↔ e ∈ z ∧ e.2 ≤ now := by
  rw [due, List.mem_insertionSort, List.mem_filter, decide_eq_true_eq]

theorem due_sorted (z : List (String × ℤ)) (now : ℤ) : (due z now).Pairwise zle :=
  List.pairwise_insertionSort zle _

theorem nodup_due (h : (z.map Prod.fst).Nodup) : ((due z now).map Prod.fst).Nodup := by
  have hperm : (due z now).Perm (z.filter fun e => e.2 ≤ now) := List.perm_insertionSort zle _
  exact (hperm.map Prod.fst).nodup_iff.mpr (h.sublist (List.filter_sublist.map _))

theorem zle_antisymm {a b : String × ℤ} (hab : zle a b) (hba : zle b a) : a = b := by
  have hscore : a.2 = b.2 := le_antisymm hab.score_le hba.score_le
  obtain hlt | ⟨-, hle⟩ := hab
  · exact absurd hlt hscore.not_lt
  · obtain hlt | ⟨-, hle'⟩ := hba
    · exact absurd hlt hscore.symm.not_lt
    · exact Prod.ext (String.le_antisymm hle hle') hscore

theorem filter_not_mem_take {entries : List (String × ℤ)} (h : (entries.map Prod.fst).Nodup)
    (n : ℕ) :
    entries.filter (fun e => e.1 ∉ (entries.take n).map Prod.fst) = entries.drop n := by
  rw [← List.take_append_drop n entries, List.map_append] at h
  have hdisjoint := (List.nodup_append.mp h).2.2
  have hpage : (entries.take n).filter (fun e => e.1 ∉ (entries.take n).map Prod.fst) = [] := by
    refine List.filter_eq_nil_iff.mpr fun e he => ?_
    rw [decide_eq_true_eq, not_not]
    exact List.mem_map_of_mem he
  have hrest : (entries.drop n).filter (fun e => e.1 ∉ (entries.take n).map Prod.fst) =
      entries.drop n := by
    refine List.filter_eq_self.mpr fun e he => ?_
    rw [decide_eq_true_eq]
    exact fun hmem => hdisjoint _ hmem _ (List.mem_map_of_mem he) rfl
  conv_lhs => arg 2; rw [← List.take_append_drop n entries]
  rw [List.filter_append, hpage, hrest, List.nil_append]

/-- **A call takes its page off the due members**, and the next one goes on behind it. -/
theorem due_dropMembers (h : (z.map Prod.fst).Nodup) (n : ℕ) :
    due (dropMembers z (((due z now).take n).map Prod.fst)) now = (due z now).drop n := by
  rw [← filter_not_mem_take (nodup_due h) n]
  -- both sides are the due members outside of the page, in order
  refine List.Perm.eq_of_pairwise (fun _ _ _ _ => zle_antisymm) (due_sorted _ _)
    ((due_sorted z now).filter _) ?_
  refine (List.perm_insertionSort zle _).trans ?_
  rw [dropMembers, List.filter_comm]
  exact (List.perm_insertionSort zle _).symm.filter _

theorem dropMembers_dropMembers (z : List (String × ℤ)) (vs ws : List String) :
    dropMembers (dropMembers z vs) ws = dropMembers z (vs ++ ws) := by
  rw [dropMembers, dropMembers, dropMembers, List.filter_filter]
  refine List.filter_congr fun e _ => ?_
  rw [Bool.eq_iff_iff]
  simp [and_comm]

end Due

/-! ### One call -/

section Call

variable {cj : Cjson} {db db' : Db Key} {k : Key} {now : ℤ}

theorem jobsFor_map (cj : Cjson) (queue : String) (entries : List (String × ℤ)) :
    (((entries.map Prod.fst).filterMap (dueTarget cj)).filter (·.queue = queue)).map (·.data) =
      (jobsFor cj queue entries).map Prod.fst := by
  induction entries with
  | nil => rfl
  | cons e entries ih =>
    rw [List.map_cons, List.filterMap_cons, jobsFor, List.filter_cons]
    cases htarget : dueTarget cj e.1 with
    | none => exact ih
    | some t =>
      by_cases hqueue : t.queue = queue
      · simpa [jobsFor, hqueue, data_of_dueTarget htarget] using ih
      · simpa [jobsFor, hqueue] using ih

theorem of_run_wantQueueNames {α : Type} {ts : List Target} {f : Unit → Script Key α} {a : α}
    (h : (wantQueueNames ts >>= f).run db = .ok a db') :
    (ts ≠ [] → db.HasType .queues .set) ∧ (f ()).run db = .ok a db' := by
  unfold wantQueueNames at h
  split at h
  · obtain ⟨htype, h⟩ := of_run_want h
    exact ⟨fun _ => htype, h⟩
  · next hnone => exact ⟨fun hsome => absurd hsome hnone, h⟩

def page (db : Db Key) (k : Key) (now : ℤ) : List (String × ℤ) := (due (db.zset k) now).take 100

/-- What a call has done that does not end with an error. -/
structure Moved (cj : Cjson) (k : Key) (entries : List (String × ℤ)) (db db' : Db Key) : Prop where
  zset : db'.zset k = dropMembers (db.zset k) (entries.map Prod.fst)
  queue : ∀ queue, (db'.list (.queue queue)).reverse = (db.list (.queue queue)).reverse ++
    (jobsFor cj queue entries).map Prod.fst

theorem Moved.nil (cj : Cjson) (k : Key) (db : Db Key) : Moved cj k [] db db where
  zset := by simp [dropMembers]
  queue := by simp [jobsFor]

/-- **A call moves a page**, and says how many jobs were on it. -/
theorem enqueueScheduled_ok (hk : k.kind = .zset) {count : ℕ}
    (h : (enqueueScheduled cj k 100 now).run db = .ok count db') :
    count = (((page db k now).map Prod.fst).filterMap (dueTarget cj)).length ∧
      Moved cj k (page db k now) db db' := by
  -- an empty page is not touched, whether or not the key is there
  have hempty (hpage : page db k now = []) (hout : Outcome.ok 0 db = .ok count db') :
      count = (((page db k now).map Prod.fst).filterMap (dueTarget cj)).length ∧
        Moved cj k (page db k now) db db' := by
    cases hout
    rw [hpage]
    exact ⟨rfl, .nil cj k db⟩
  unfold enqueueScheduled at h
  rw [run_type_bind, Script.run_ite] at h
  split at h
  · next hnone =>
    refine hempty ?_ h
    rw [page, Db.zset, Db.typeOf_eq_none hnone]
    rfl
  · obtain ⟨htype, h⟩ := of_run_want h
    rw [hk] at htype
    rw [Script.run_bind_ok (run_zrangebyscore htype now 100), Script.run_ite] at h
    split at h
    · next hnone => exact hempty (List.map_eq_nil_iff.mp hnone) h
    · obtain ⟨hqueues, h⟩ := of_run_wantQueues h
      obtain ⟨hnames, h⟩ := of_run_wantQueueNames h
      obtain ⟨db₁, hrem, hzset, -, hother⟩ := run_zremAll htype (zrange (db.zset k) now 100)
      -- the members are taken off before the pushes, which find the types that were checked
      have hsame {k' : Key} {t : KeyType} (hkind : k'.kind ≠ .zset) (htype : db.HasType k' t) :
          db₁.HasType k' t := by
        unfold Db.HasType
        rw [hother k' fun heq => hkind (heq ▸ hk)]
        exact htype
      have hpush := run_pushTargets_of_hasType (fun hsome => hsame KeyType.noConfusion (hnames hsome))
        fun t ht => hsame KeyType.noConfusion (hqueues t ht)
      rw [Script.run_bind_ok hrem, Script.run_bind_ok hpush] at h
      cases h
      refine ⟨rfl, ?_, fun queue => ?_⟩
      · rw [zset_foldl_pushTarget hk, hzset]
        rfl
      · have hlist : db₁.list (.queue queue) = db.list (.queue queue) := by
          rw [Db.list, hother _ fun heq => by rw [← heq] at hk; cases hk]
          rfl
        rw [(list_foldl_pushTarget queue _ db₁).1, List.reverse_append, List.reverse_reverse, hlist,
          zrange_eq, jobsFor_map]
        rfl

theorem Moved.trans {db₁ db₂ : Db Key} {first second : List (String × ℤ)}
    (h : Moved cj k first db db₁) (h' : Moved cj k second db₁ db₂) :
    Moved cj k (first ++ second) db db₂ where
  zset := by rw [h'.zset, h.zset, dropMembers_dropMembers, List.map_append]
  queue queue := by
    rw [h'.queue, h.queue, jobsFor, jobsFor, jobsFor, List.filter_append, List.map_append,
      List.append_assoc]

end Call

/-! ### The loop -/

def NoBlankPage (cj : Cjson) (entries : List (String × ℤ)) : Prop :=
  ∀ i, 100 * (i + 1) < entries.length →
    ∃ e ∈ (entries.drop (100 * i)).take 100, dueTarget cj e.1 ≠ none

section Loop

variable {cj : Cjson} {db : Db Key} {k : Key} {now : ℤ}

theorem noBlankPage_iff {entries : List (String × ℤ)} :
    NoBlankPage cj entries ↔
      (100 < entries.length → ∃ e ∈ entries.take 100, dueTarget cj e.1 ≠ none) ∧
        NoBlankPage cj (entries.drop 100) := by
  have hshift (i : ℕ) : (entries.drop 100).drop (100 * i) = entries.drop (100 * (i + 1)) := by
    rw [List.drop_drop]
    congr 1
    omega
  constructor
  · refine fun h => ⟨fun hlong => h 0 hlong, fun i hi => ?_⟩
    rw [hshift]
    rw [List.length_drop] at hi
    exact h (i + 1) (by omega)
  · rintro ⟨hfirst, hrest⟩ (_ | i) hi
    · exact hfirst hi
    · rw [← hshift]
      exact hrest i (by rw [List.length_drop]; omega)

theorem length_targets_eq_zero {entries : List (String × ℤ)} :
    ((entries.map Prod.fst).filterMap (dueTarget cj)).length = 0 ↔
      ∀ e ∈ entries, dueTarget cj e.1 = none := by
  rw [List.length_eq_zero_iff, List.filterMap_eq_nil_iff, List.forall_mem_map]

/-- **The loop ends**, with an error or when it has moved what is due up to a page without jobs.
That is all there is if every other page has a job. -/
theorem enqueueFromZSet_cases (hk : k.kind = .zset) (hnodup : ((db.zset k).map Prod.fst).Nodup)
    {rounds : ℕ} (hrounds : (due (db.zset k) now).length < rounds) :
    (∃ e db', enqueueFromZSet cj k now rounds db = some (.error e db')) ∨
    ∃ n db', enqueueFromZSet cj k now rounds db = some (.ok () db') ∧
      Moved cj k ((due (db.zset k) now).take n) db db' ∧
      ((due (db.zset k) now).length ≤ n ↔ NoBlankPage cj (due (db.zset k) now)) := by
  induction rounds generalizing db with
  | zero => omega
  | succ rounds ih =>
    rw [enqueueFromZSet]
    cases hrun : (enqueueScheduled cj k 100 now).run db with
    | error e db' => exact Or.inl ⟨e, db', rfl⟩
    | ok count db₁ =>
      obtain ⟨rfl, hmoved⟩ := enqueueScheduled_ok hk hrun
      simp only
      rw [noBlankPage_iff]
      split
      · next hzero =>
        -- a blank page: it is the last one, or the loop ends too early
        rw [length_targets_eq_zero] at hzero
        refine Or.inr ⟨100, db₁, rfl, hmoved, fun hshort => ⟨by omega, fun i hi => ?_⟩, ?_⟩
        · rw [List.length_drop] at hi
          omega
        · rintro ⟨hfirst, -⟩
          by_contra hlong
          obtain ⟨e, he, hjob⟩ := hfirst (by omega)
          exact hjob (hzero e he)
      · next hsome =>
        -- a page with a job: what is due is shorter by it, and the loop goes on
        have hjob : ∃ e ∈ (due (db.zset k) now).take 100, dueTarget cj e.1 ≠ none := by
          rw [length_targets_eq_zero] at hsome
          simpa [page] using hsome
        have hdue : due (db₁.zset k) now = (due (db.zset k) now).drop 100 := by
          rw [hmoved.zset]
          exact due_dropMembers hnodup 100
        have hshorter : (due (db₁.zset k) now).length < rounds := by
          obtain ⟨e, he, -⟩ := hjob
          have hpos := List.length_pos_of_mem (List.mem_of_mem_take he)
          rw [hdue, List.length_drop]
          omega
        have hnodup₁ : ((db₁.zset k).map Prod.fst).Nodup := by
          rw [hmoved.zset]
          exact hnodup.sublist (List.filter_sublist.map _)
        obtain herror | ⟨n, db', hloop, hmoved', hall⟩ := ih hnodup₁ hshorter
        · exact Or.inl herror
        · rw [hdue] at hmoved' hall
          refine Or.inr ⟨100 + n, db', hloop, ?_, ?_⟩
          · rw [List.take_add]
            exact hmoved.trans hmoved'
          · rw [List.length_drop] at hall
            rw [and_iff_right fun _ => hjob, ← hall]
            omega

theorem drained_iff {z : List (String × ℤ)} (h : (z.map Prod.fst).Nodup) (n : ℕ) :
    (∀ e ∈ dropMembers z (((due z now).take n).map Prod.fst), now < e.2) ↔
      (due z now).length ≤ n := by
  constructor
  · intro hlate
    by_contra hlong
    obtain ⟨e, he⟩ := List.exists_mem_of_ne_nil ((due z now).drop n) (by
      rw [Ne, List.drop_eq_nil_iff]
      exact hlong)
    rw [← due_dropMembers h, mem_due] at he
    exact absurd he.2 (not_le.mpr (hlate e he.1))
  · intro hshort e he
    rw [List.take_of_length_le hshort, dropMembers, List.mem_filter, decide_eq_true_eq] at he
    by_contra hdue
    exact he.2 (List.mem_map_of_mem (mem_due.mpr ⟨he.1, not_lt.mp hdue⟩))

theorem mem_jobsFor_due {queue : String} {z : List (String × ℤ)} {e : String × ℤ} :
    e ∈ jobsFor cj queue (due z now) ↔
      e ∈ z ∧ e.2 ≤ now ∧ ∃ t, dueTarget cj e.1 = some t ∧ t.queue = queue := by
  rw [jobsFor, List.mem_filter, mem_due, and_assoc]
  simp [Option.any_eq_true]

end Loop

/-- **Promotion drains what is due, exactly if every page of a hundred but the last has a job.** For
every content of the set and of the other keys, the loop ends. If it does not end with an error,
nothing due is left in the set exactly under that condition, and then each queue has got the due
jobs that name it, each once, behind what it had before and in the order of their scores. -/
theorem promotion_drains_iff (cj : Cjson) {k : Key} (hk : k = .scheduled ∨ k = .retry) (db : Db Key)
    (now : ℤ) (hnodup : ((db.zset k).map Prod.fst).Nodup) {rounds : ℕ}
    (hrounds : (db.zset k).length < rounds) :
    ∃ out, enqueueFromZSet cj k now rounds db = some out ∧ ∀ db', out = .ok () db' →
      ((∀ e ∈ db'.zset k, now < e.2) ↔ NoBlankPage cj (due (db.zset k) now)) ∧
      (NoBlankPage cj (due (db.zset k) now) → ∀ queue, ∃ pushed : List (String × ℤ),
        (db'.list (.queue queue)).reverse =
          (db.list (.queue queue)).reverse ++ pushed.map Prod.fst ∧
        pushed.Nodup ∧ pushed.Pairwise (fun a b => a.2 ≤ b.2) ∧
        ∀ e, e ∈ pushed ↔ e ∈ db.zset k ∧ e.2 ≤ now ∧
          ∃ t, dueTarget cj e.1 = some t ∧ t.queue = queue) := by
  have hkind : k.kind = .zset := by
    obtain rfl | rfl := hk <;> rfl
  have hlength : (due (db.zset k) now).length ≤ (db.zset k).length := by
    rw [due, List.length_insertionSort]
    exact List.length_filter_le _ _
  obtain ⟨e, db₁, hrun⟩ | ⟨n, db₁, hrun, hmoved, hall⟩ :=
    @enqueueFromZSet_cases cj db k now hkind hnodup _ (hlength.trans_lt hrounds)
  · exact ⟨_, hrun, fun db' hout => by cases hout⟩
  refine ⟨_, hrun, fun db' hout => ?_⟩
  cases hout
  rw [hmoved.zset, drained_iff hnodup, hall]
  refine ⟨Iff.rfl, fun hpages queue => ⟨jobsFor cj queue (due (db.zset k) now), ?_, ?_, ?_, ?_⟩⟩
  · rw [hmoved.queue, List.take_of_length_le (hall.mpr hpages)]
  · exact (nodup_due hnodup).of_map.filter _
  · exact ((due_sorted _ _).imp fun hle => hle.score_le).filter _
  · exact fun e => mem_jobsFor_due

/-- A hundred members that are no jobs, a job for the default queue among them, one for another
queue on the page behind them, and one that is not due yet. -/
def crowded : Db Key
  | .scheduled => some (.zset ((List.range 100).map (fun i =>
      (String.singleton (Char.ofNat (i + 32)), (i : ℤ))) ++
        [("\x7b\x7d", 50), ("\x7b\"queue\":\"mail\"\x7d", 100), ("\x7b\"retry\":3\x7d", 101)]))
  | _ => none

theorem promotion_of_two_pages :
    ∃ db', enqueueFromZSet Cjson.plain .scheduled 100 104 crowded = some (.ok () db') ∧
      (∀ e ∈ db'.zset .scheduled, 100 < e.2) ∧
      db'.zset .scheduled = [("\x7b\"retry\":3\x7d", 101)] ∧
      db'.list (.queue "default") = ["\x7b\x7d"] ∧
      db'.list (.queue "mail") = ["\x7b\"queue\":\"mail\"\x7d"] := by
  have hrun : (enqueueFromZSet Cjson.plain .scheduled 100 104 crowded).map
      (fun out => (out.value?, out.db.zset .scheduled, out.db.list (.queue "default"),
        out.db.list (.queue "mail"))) =
      some (some (), [("\x7b\"retry\":3\x7d", 101)], ["\x7b\x7d"],
        ["\x7b\"queue\":\"mail\"\x7d"]) := by decide +kernel
  have hlength : (due (crowded.zset .scheduled) 100).length = 102 := by decide +kernel
  have hpage : ("\x7b\x7d", 50) ∈ (due (crowded.zset .scheduled) 100).take 100 := by
    decide +kernel
  obtain ⟨out, hout, hdrained⟩ := @promotion_drains_iff Cjson.plain .scheduled (Or.inl rfl)
    crowded 100 (by decide +kernel) 104 (by decide +kernel)
  rw [hout] at hrun
  cases out with
  | error e db' => cases hrun
  | ok _ db' =>
    simp only [Option.map_some, Option.some.injEq, Prod.mk.injEq] at hrun
    refine ⟨db', hout, (hdrained db' rfl).1.mpr fun i hi => ?_, hrun.2⟩
    obtain rfl : i = 0 := by omega
    exact ⟨_, hpage, by decide +kernel⟩

def blankPage : Db Key
  | .scheduled => some (.zset ((List.range 100).map (fun i =>
      (String.singleton (Char.ofNat (i + 32)), (i : ℤ))) ++ [("\x7b\x7d", 100)]))
  | _ => none

/-- **The loop ends after a page without jobs**, with a job that is due left in the set. -/
theorem blank_page_ends_promotion :
    (enqueueFromZSet Cjson.plain .scheduled 100 102 blankPage).map
        (fun out => (out.value?, out.db.zset .scheduled)) =
      some (some (), [("\x7b\x7d", 100)]) := by
  decide +kernel

end Promotion

end Senna
