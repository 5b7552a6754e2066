import Mathlib.Data.Multiset.Filter
import Mathlib.Data.Multiset.AddSub
import Senna.Worker.Script

/-!
# Where the payloads are

An abstract view of the keyspace, for reasoning about jobs and not about commands. A
`Stock` says which payloads every key holds, without their order and scores, and which
payload is trusted for every job. Jobs move by four operations on it: `put` a payload
somewhere, `take` one copy out, `drop` a payload altogether (a sorted set has no second
copy), and `trust` a payload for a job, or none.

`stock` reads the view off a keyspace. The lemmas `stock_fetchJob` to
`stock_requeueOrphaned` say what each script does in these terms. The two scripts that
handle many jobs at once are there sequences of single moves (`recoverAll`,
`promoteAll`), one job after the other, although the scripts first push all jobs and
then remove them: nobody can look in between.
-/

namespace Senna

open Redis

/-- Which payloads stand where, and which are trusted. -/
structure Stock where
  stored : Key → Multiset String
  trusted : String → Option String

namespace Stock

@[ext] theorem ext {st st' : Stock} (hstored : ∀ k, st.stored k = st'.stored k)
    (htrusted : ∀ id, st.trusted id = st'.trusted id) : st = st' := by
  cases st; cases st'
  simp only [mk.injEq]
  exact ⟨funext hstored, funext htrusted⟩

variable (st : Stock)

def fill (k : Key) (ps : Multiset String) : Stock :=
  { st with stored := Function.update st.stored k ps }

def put (k : Key) (p : String) : Stock := st.fill k (p ::ₘ st.stored k)

def take (k : Key) (p : String) : Stock := st.fill k ((st.stored k).erase p)

def drop (k : Key) (p : String) : Stock := st.fill k ((st.stored k).filter (· ≠ p))

def trust (id : String) (p : Option String) : Stock :=
  { st with trusted := Function.update st.trusted id p }

section Simp

variable (k k' : Key) (p : String) (ps ps' : Multiset String) (id id' : String)
  (o : Option String)

@[simp] theorem stored_fill : (st.fill k ps).stored k' = if k' = k then ps else st.stored k' :=
  Function.update_apply ..

@[simp] theorem stored_put :
    (st.put k p).stored k' = if k' = k then p ::ₘ st.stored k else st.stored k' :=
  Function.update_apply ..

@[simp] theorem stored_take :
    (st.take k p).stored k' = if k' = k then (st.stored k).erase p else st.stored k' :=
  Function.update_apply ..

@[simp] theorem stored_drop :
    (st.drop k p).stored k' = if k' = k then (st.stored k).filter (· ≠ p) else st.stored k' :=
  Function.update_apply ..

@[simp] theorem stored_trust : (st.trust id o).stored k = st.stored k := rfl

@[simp] theorem trusted_fill : (st.fill k ps).trusted id = st.trusted id := rfl

@[simp] theorem trusted_put : (st.put k p).trusted id = st.trusted id := rfl

@[simp] theorem trusted_take : (st.take k p).trusted id = st.trusted id := rfl

@[simp] theorem trusted_drop : (st.drop k p).trusted id = st.trusted id := rfl

@[simp] theorem trusted_trust :
    (st.trust id o).trusted id' = if id' = id then o else st.trusted id' :=
  Function.update_apply ..

@[simp] theorem fill_fill : (st.fill k ps).fill k ps' = st.fill k ps' := by
  simp [fill]

@[simp] theorem trust_self : st.trust id (st.trusted id) = st := by
  simp [trust]

end Simp

@[simp] theorem take_put (k : Key) (p : String) : (st.put k p).take k p = st := by
  refine Stock.ext (fun k' => ?_) fun _ => rfl
  by_cases hk : k' = k
  · simp [hk]
  · simp [hk]

theorem take_absent {k : Key} {p : String} (h : p ∉ st.stored k) : st.take k p = st := by
  rw [take, Multiset.erase_of_notMem h]
  simp [fill]

section Mem

variable {st} {k k' : Key} {p q : String}

theorem mem_put (h : q ∈ (st.put k' p).stored k) : q ∈ st.stored k ∨ q = p := by
  rw [stored_put] at h
  split at h
  · next hk =>
    obtain rfl | h := Multiset.mem_cons.mp h
    · exact Or.inr rfl
    · exact Or.inl (hk ▸ h)
  · exact Or.inl h

theorem mem_take (h : q ∈ (st.take k' p).stored k) : q ∈ st.stored k := by
  rw [stored_take] at h
  split at h
  · next hk => exact hk ▸ Multiset.mem_of_mem_erase h
  · exact h

theorem mem_drop (h : q ∈ (st.drop k' p).stored k) : q ∈ st.stored k := by
  rw [stored_drop] at h
  split at h
  · next hk => exact hk ▸ (Multiset.mem_filter.mp h).1
  · exact h

end Mem

end Stock

/-! ### The view of a keyspace -/

def payloadsOf (k : Key) (v : Option Value) : Multiset String :=
  match k.kind with
  | .list => (Db.listOf v : Multiset String)
  | .zset => ((Db.zsetOf v).map Prod.fst : Multiset String)
  | _ => 0

def stock (db : Db Key) : Stock where
  stored k := payloadsOf k (db k)
  trusted := trustedIn db

section View

variable (db : Db Key)

@[simp] theorem stored_queue (q : String) :
    (stock db).stored (.queue q) = (db.list (.queue q) : Multiset String) := rfl

@[simp] theorem stored_inFlight (w : String) :
    (stock db).stored (.inFlight w) = (db.list (.inFlight w) : Multiset String) := rfl

theorem stock_trusted (id : String) : (stock db).trusted id = db.str (.finalization id) := rfl

theorem stored_zset {k : Key} (hk : k.kind = .zset) :
    (stock db).stored k = ((db.zset k).map Prod.fst : Multiset String) := by
  change payloadsOf k (db k) = _
  rw [payloadsOf, hk]
  rfl

theorem stored_list {k : Key} (hk : k.kind = .list) :
    (stock db).stored k = (db.list k : Multiset String) := by
  change payloadsOf k (db k) = _
  rw [payloadsOf, hk]
  rfl

theorem stock_write {k : Key} (hk : ∀ id, k ≠ .finalization id) (v : Option Value) :
    stock (db.write k v) = (stock db).fill k (payloadsOf k v) := by
  refine Stock.ext (fun k' => ?_) fun id => congrFun (trustedIn_write hk v) id
  simp only [stock, Db.write_apply, Stock.stored_fill]
  split
  · next h => rw [h]
  · rfl

theorem stock_putList {k : Key} (hk : k.kind = .list) (l : List String) :
    stock (db.putList k l) = (stock db).fill k l := by
  have hkey : ∀ id, k ≠ .finalization id := by rintro id rfl; cases hk
  rw [Db.putList, stock_write db hkey, payloadsOf, hk]
  simp

theorem stock_putZset {k : Key} (hk : k.kind = .zset) (z : List (String × ℤ)) :
    stock (db.putZset k z) = (stock db).fill k (z.map Prod.fst : List String) := by
  have hkey : ∀ id, k ≠ .finalization id := by rintro id rfl; cases hk
  rw [Db.putZset, stock_write db hkey, payloadsOf, hk]
  simp

theorem stock_write_other {k : Key} (hkey : ∀ id, k ≠ .finalization id)
    (hk : k.kind ≠ .list ∧ k.kind ≠ .zset) (v : Option Value) :
    stock (db.write k v) = stock db := by
  have hnone : ∀ v, payloadsOf k v = 0 := by
    intro v
    unfold payloadsOf
    split
    · next h => exact absurd h hk.1
    · next h => exact absurd h hk.2
    · rfl
  rw [stock_write db hkey, hnone]
  refine Stock.ext (fun k' => ?_) fun _ => rfl
  rw [Stock.stored_fill]
  split
  · next h => rw [h]; exact (hnone (db k)).symm
  · rfl

@[simp] theorem stock_putStr_finalization (id p : String) :
    stock (db.putStr (.finalization id) p) = (stock db).trust id (some p) := by
  refine Stock.ext (fun k => ?_) fun id' => ?_
  · by_cases h : k = .finalization id
    · subst h; rfl
    · simp only [stock, Stock.stored_trust, Db.putStr, Db.write_apply, if_neg h]
  · simp [stock_trusted]

@[simp] theorem stock_del_finalization (id : String) :
    stock (db.del (.finalization id)) = (stock db).trust id none := by
  refine Stock.ext (fun k => ?_) fun id' => ?_
  · by_cases h : k = .finalization id
    · subst h; rfl
    · simp only [stock, Stock.stored_trust, Db.del, Db.write_apply, if_neg h]
  · simp [stock_trusted]

@[simp] theorem stock_dropUnique (unique : Option String) (jobID : String) :
    stock (dropUnique db unique jobID) = stock db := by
  unfold dropUnique
  split
  · split
    · exact stock_write_other db (fun _ => Key.noConfusion)
        ⟨by simp [Key.kind], by simp [Key.kind]⟩ _
    · rfl
  · rfl

@[simp] theorem stock_putSet_queues (s : Finset String) : stock (db.putSet .queues s) = stock db :=
  stock_write_other db (fun _ => Key.noConfusion) ⟨by simp [Key.kind], by simp [Key.kind]⟩ _

@[simp] theorem stock_lock (queue : String) (v : Option Value) :
    stock (db.write (.sequentialLock queue) v) = stock db :=
  stock_write_other db (fun _ => Key.noConfusion) ⟨by simp [Key.kind], by simp [Key.kind]⟩ _

end View

/-! ### What the scripts do to the view -/

section Scripts

variable {cj : Cjson} {db : Db Key}

theorem coe_dropLast {l : List String} {p : String} (h : l.getLast? = some p) :
    (l.dropLast : Multiset String) = (l : Multiset String).erase p := by
  have hsplit : l = l.dropLast ++ [p] := (List.dropLast_append_getLast? p h).symm
  have hcons : (l : Multiset String) = p ::ₘ (l.dropLast : Multiset String) := by
    conv_lhs => rw [hsplit]
    exact Multiset.coe_eq_coe.mpr (List.perm_append_singleton p _)
  rw [hcons, Multiset.erase_cons_head]

theorem coe_set_idxOf {l : List String} {p : String} (h : p ∈ l) (p' : String) :
    ((l.set (l.idxOf p) p' : List String) : Multiset String)
      = p' ::ₘ (l : Multiset String).erase p := by
  induction l with
  | nil => cases h
  | cons x l ih =>
    by_cases hx : x = p
    · subst hx
      simp
    · have hmem : p ∈ l := (List.mem_cons.mp h).resolve_left (Ne.symm hx)
      rw [List.idxOf_cons_ne _ hx, List.set_cons_succ, ← Multiset.cons_coe, ih hmem,
        ← Multiset.cons_coe, Multiset.erase_cons_tail _ hx, Multiset.cons_swap]

/-- What a fetch script can do: nothing, when there is no job for the worker; claim a job; or
raise in the middle, with the payload it was at left where `stranded` says. -/
inductive FetchEffect (cj : Cjson) (db : Db Key) (queue workerID : String)
    (stranded : String → Stock) : Outcome Key FetchReply → Prop where
  | idle {r : FetchReply} {db' : Db Key} (hreply : ∀ p, r ≠ .job p) (htyped : WellTyped db')
      (hstock : stock db' = stock db) : FetchEffect cj db queue workerID stranded (.ok r db')
  | claimed {p s : String} {db' : Db Key} (hp : p ∈ (stock db).stored (.queue queue))
      (hheld : held cj (stock db).trusted p = some s) (htyped : WellTyped db')
      (hstock : stock db' = ((stock db).take (.queue queue) p).put (.inFlight workerID) s) :
      FetchEffect cj db queue workerID stranded (.ok (.job s) db')
  | raised {p : String} {e : Error} {db' : Db Key} (hp : p ∈ (stock db).stored (.queue queue))
      (hheld : held cj (stock db).trusted p = none) (htyped : WellTyped db')
      (hstock : stock db' = stranded p) :
      FetchEffect cj db queue workerID stranded (.error e db')

theorem stock_fetchJob (h : WellTyped db) (queue workerID : String) :
    FetchEffect cj db queue workerID (fun p => (stock db).take (.queue queue) p)
      ((fetchJob cj queue workerID).run db) := by
  rw [run_fetchJob (h _) (h _)]
  cases hlast : (db.list (.queue queue)).getLast? with
  | none => exact .idle (fun _ => FetchReply.noConfusion) h rfl
  | some p =>
    have hmem : p ∈ (stock db).stored (.queue queue) := List.mem_of_getLast? hlast
    have htyped := h.putList (k := .queue queue) rfl (db.list (.queue queue)).dropLast
    have htake : stock (db.putList (.queue queue) (db.list (.queue queue)).dropLast)
        = (stock db).take (.queue queue) p := by
      rw [stock_putList db rfl, coe_dropLast hlast]
      rfl
    dsimp only
    cases hheld : held cj (trustedIn db) p with
    | none =>
      refine .raised hmem hheld htyped ?_
      exact htake
    | some s =>
      refine .claimed hmem hheld (htyped.putList (k := .inFlight workerID) rfl _) ?_
      rw [stock_putList _ rfl, htake]
      simp [Stock.put]

theorem stock_sequentialFetch (h : WellTyped db) (queue workerID : String) :
    FetchEffect cj db queue workerID
      (fun p => ((stock db).take (.queue queue) p).put (.inFlight workerID) p)
      ((sequentialFetch cj queue workerID).run db) := by
  rw [run_sequentialFetch (h _) (h _) (h _)]
  split
  · exact .idle (fun _ => FetchReply.noConfusion) h rfl
  · cases hlast : (db.list (.queue queue)).getLast? with
    | none => exact .idle (fun _ => FetchReply.noConfusion) h rfl
    | some p =>
      have hmem : p ∈ (stock db).stored (.queue queue) := List.mem_of_getLast? hlast
      have htyped := h.putList (k := .queue queue) rfl (db.list (.queue queue)).dropLast
      have hmove : ∀ s, stock ((db.putList (.queue queue) (db.list (.queue queue)).dropLast).putList
          (.inFlight workerID) (s :: db.list (.inFlight workerID)))
          = ((stock db).take (.queue queue) p).put (.inFlight workerID) s := by
        intro s
        rw [stock_putList _ rfl, stock_putList db rfl, coe_dropLast hlast]
        simp [Stock.put, Stock.take]
      dsimp only
      cases hheld : held cj (trustedIn db) p with
      | none =>
        refine .raised hmem hheld (htyped.putList (k := .inFlight workerID) rfl _) ?_
        exact hmove p
      | some s =>
        refine .claimed hmem hheld
          ((htyped.putList (k := .inFlight workerID) rfl _).putStr (k := .sequentialLock queue)
            rfl _) ?_
        rw [Db.putStr, stock_lock, hmove]

theorem stock_replace {k : Key} (hk : k.kind = .list) {p : String} (h : p ∈ db.list k)
    (p' : String) :
    stock (db.putList k ((db.list k).set ((db.list k).idxOf p) p'))
      = ((stock db).take k p).put k p' := by
  rw [stock_putList db hk, coe_set_idxOf h]
  simp [Stock.put, Stock.take, stored_list db hk]

theorem stock_erase {k : Key} (hk : k.kind = .list) (p : String) :
    stock (db.putList k ((db.list k).erase p)) = (stock db).take k p := by
  rw [stock_putList db hk, Stock.take, stored_list db hk, Multiset.coe_erase]

theorem stock_zinsert {k : Key} (hk : k.kind = .zset) (p : String) (score : ℤ) :
    stock (db.putZset k (zinsert (db.zset k) p score)) = ((stock db).drop k p).put k p := by
  have hfilter : ((db.zset k).filter fun e => e.1 ≠ p).map Prod.fst
      = ((db.zset k).map Prod.fst).filter (· ≠ p) := by
    rw [List.filter_map]
    rfl
  rw [stock_putZset db hk, zinsert, List.map_cons, hfilter]
  simp [Stock.put, Stock.drop, stored_zset db hk]

theorem stock_zinsert_of_eq {k : Key} (hk : k.kind = .zset) {db' : Db Key}
    (hsame : db'.zset k = db.zset k) (p : String) (score : ℤ) :
    stock (db'.putZset k (zinsert (db.zset k) p score)) = ((stock db').drop k p).put k p := by
  rw [← hsame]
  exact stock_zinsert hk p score

/-- What a script can do that moves a payload on: take it out of the in-flight list, and leave the
rest to `st`; or nothing, if it is not there. -/
inductive TakeEffect (db : Db Key) (workerID payload : String) (st : Stock) :
    Outcome Key ℕ → Prop where
  | taken {db' : Db Key} (hp : payload ∈ (stock db).stored (.inFlight workerID))
      (htyped : WellTyped db') (hstock : stock db' = st) :
      TakeEffect db workerID payload st (.ok 1 db')
  | missed (hp : payload ∉ (stock db).stored (.inFlight workerID)) :
      TakeEffect db workerID payload st (.ok 0 db)

theorem TakeEffect.of_mem {workerID payload : String} {st : Stock} {out : Outcome Key ℕ}
    (h : TakeEffect db workerID payload st out)
    (hp : payload ∈ (stock db).stored (.inFlight workerID)) :
    ∃ db', out = .ok 1 db' ∧ WellTyped db' ∧ stock db' = st := by
  cases h with
  | taken _ htyped hstock => exact ⟨_, rfl, htyped, hstock⟩
  | missed hnot => exact absurd hp hnot

/-- What marking can do: put the marker where the payload is, in flight or back on a queue; find
it there already; or find neither. -/
inductive MarkEffect (db : Db Key) (workerID queue jobID payload finalized : String) :
    Outcome Key ℕ → Prop where
  | replaced {k : Key} {n : ℕ} {db' : Db Key} (hk : k = .inFlight workerID ∨ k = .queue queue)
      (hn : n = 1 ∨ n = 2) (hp : payload ∈ (stock db).stored k) (htyped : WellTyped db')
      (hstock : stock db' =
        (((stock db).take k payload).put k finalized).trust jobID (some finalized)) :
      MarkEffect db workerID queue jobID payload finalized (.ok n db')
  | found {k : Key} {n : ℕ} {db' : Db Key} (hk : k = .inFlight workerID ∨ k = .queue queue)
      (hn : n = 1 ∨ n = 2) (hp : finalized ∈ (stock db).stored k) (htyped : WellTyped db')
      (hstock : stock db' = (stock db).trust jobID (some finalized)) :
      MarkEffect db workerID queue jobID payload finalized (.ok n db')
  | missed : MarkEffect db workerID queue jobID payload finalized (.ok 0 db)

section

variable (h : WellTyped db)

include h

theorem stock_markJobFinalization (workerID queue jobID payload finalized : String) :
    MarkEffect db workerID queue jobID payload finalized
      ((markJobFinalization workerID queue jobID payload finalized).run db) := by
  have htrust : ∀ {db' : Db Key}, WellTyped db' →
      WellTyped (db'.putStr (.finalization jobID) finalized) := fun h' => h'.putStr rfl _
  rw [run_markJobFinalization h]
  split
  · next hp =>
    refine .replaced (Or.inl rfl) (Or.inl rfl) hp (htrust (h.putList rfl _)) ?_
    rw [stock_putStr_finalization, stock_replace rfl hp]
  split
  · next hf =>
    exact .found (Or.inl rfl) (Or.inl rfl) hf (htrust h) (stock_putStr_finalization _ _ _)
  split
  · next hp =>
    refine .replaced (Or.inr rfl) (Or.inr rfl) hp (htrust (h.putList rfl _)) ?_
    rw [stock_putStr_finalization, stock_replace rfl hp]
  split
  · next hf =>
    exact .found (Or.inr rfl) (Or.inr rfl) hf (htrust h) (stock_putStr_finalization _ _ _)
  · exact .missed

theorem stock_mark_inFlight {workerID payload : String}
    (hp : payload ∈ db.list (.inFlight workerID)) (queue jobID finalized : String) :
    ∃ db', (markJobFinalization workerID queue jobID payload finalized).run db = .ok 1 db' ∧
      WellTyped db' ∧ stock db' =
        (((stock db).take (.inFlight workerID) payload).put (.inFlight workerID) finalized).trust
          jobID (some finalized) := by
  rw [run_markJobFinalization h, if_pos hp]
  refine ⟨_, rfl, (h.putList (k := .inFlight workerID) rfl _).putStr rfl _, ?_⟩
  rw [stock_putStr_finalization, stock_replace rfl hp]

theorem stock_sanitizeJobFinalization (workerID payload sanitized : String) :
    TakeEffect db workerID payload
      (((stock db).take (.inFlight workerID) payload).put (.inFlight workerID) sanitized)
      ((sanitizeJobFinalization workerID payload sanitized).run db) := by
  rw [run_sanitizeJobFinalization h]
  split
  · next hp => exact .taken hp (h.putList rfl _) (stock_replace rfl hp _)
  · next hp => exact .missed hp

theorem stock_ackJob (workerID jobID : String) (unique : Option String) (payload : String) :
    TakeEffect db workerID payload (((stock db).take (.inFlight workerID) payload).trust jobID none)
      ((ackJob workerID jobID unique payload).run db) := by
  rw [run_ackJob h]
  split
  · next hp =>
    refine .taken hp (((h.putList rfl _).del _).dropUnique _ _) ?_
    rw [stock_dropUnique, stock_del_finalization, stock_erase rfl]
  · next hp => exact .missed hp

theorem stock_moveToDeadJob (workerID jobID : String) (unique : Option String) (payload : String)
    (score : ℤ) (newData : String) :
    TakeEffect db workerID payload
      (((((stock db).take (.inFlight workerID) payload).trust jobID none).drop .dead newData).put
        .dead newData)
      ((moveToDeadJob workerID jobID unique payload score newData).run db) := by
  rw [run_moveToDeadJob h]
  split
  · next hp =>
    refine .taken hp ((((h.putList rfl _).del _).dropUnique _ _).putZset rfl _) ?_
    rw [stock_zinsert_of_eq rfl ((zset_dropUnique _ _ _).trans (by simp)), stock_dropUnique,
      stock_del_finalization, stock_erase rfl]
  · next hp => exact .missed hp

theorem stock_retryJob (workerID jobID payload : String) (score : ℤ) (newData : String) :
    TakeEffect db workerID payload
      (((((stock db).take (.inFlight workerID) payload).trust jobID none).drop .retry newData).put
        .retry newData)
      ((retryJob workerID jobID payload score newData).run db) := by
  rw [run_retryJob h]
  split
  · next hp =>
    refine .taken hp (((h.putList rfl _).del _).putZset rfl _) ?_
    rw [stock_zinsert_of_eq rfl (by simp), stock_del_finalization, stock_erase rfl]
  · next hp => exact .missed hp

theorem stock_requeueJob (workerID queue payload data : String) :
    TakeEffect db workerID payload
      (((stock db).take (.inFlight workerID) payload).put (.queue queue) data)
      ((requeueJob workerID queue payload data).run db) := by
  rw [run_requeueJob h]
  split
  · next hp =>
    refine .taken hp ((h.putList rfl _).putList rfl _) ?_
    rw [stock_putList _ rfl, stock_erase rfl]
    simp [Stock.put]
  · next hp => exact .missed hp

theorem stock_enqueueNow (queue data : String) :
    WellTyped ((enqueueNow queue data).run db).db ∧
      stock ((enqueueNow queue data).run db).db = (stock db).put (.queue queue) data := by
  rw [run_enqueueNow h]
  refine ⟨(h.putSet (k := .queues) rfl _).putList (k := .queue queue) rfl _, ?_⟩
  rw [Outcome.db_ok, stock_putList _ rfl, stock_putSet_queues]
  simp [Stock.put]

theorem stock_discardSequentialFetch (queue workerID payload : String) :
    WellTyped ((discardSequentialFetch queue workerID payload).run db).db ∧
      stock ((discardSequentialFetch queue workerID payload).run db).db =
        (stock db).take (.inFlight workerID) payload := by
  have hdrop : WellTyped (if payload ∈ db.list (.inFlight workerID) then
        db.putList (.inFlight workerID) ((db.list (.inFlight workerID)).erase payload) else db) ∧
      stock (if payload ∈ db.list (.inFlight workerID) then
        db.putList (.inFlight workerID) ((db.list (.inFlight workerID)).erase payload) else db)
        = (stock db).take (.inFlight workerID) payload := by
    split
    · exact ⟨h.putList (k := .inFlight workerID) rfl _, stock_erase rfl _⟩
    · next hp =>
      have herase : (db.list (.inFlight workerID)).erase payload = db.list (.inFlight workerID) :=
        List.erase_of_not_mem hp
      refine ⟨h, ?_⟩
      refine Stock.ext (fun k => ?_) fun _ => rfl
      rw [Stock.stored_take]
      split
      · next hk => rw [hk, stored_inFlight, Multiset.coe_erase, herase]
      · rfl
  rw [run_discardSequentialFetch h]
  simp only
  split
  · exact ⟨hdrop.1.del _, (stock_lock _ _ _).trans hdrop.2⟩
  · exact hdrop

end

/-! ### Many jobs at once -/

namespace Stock

def push (st : Stock) (t : Target) : Stock :=
  match t.finalized with
  | some id => (st.put (.queue t.queue) t.data).trust id (some t.data)
  | none => st.put (.queue t.queue) t.data

def route (target : String → Option Target) (st : Stock) (p : String) : Stock :=
  match target p with
  | some t => st.push t
  | none => st

theorem route_fill (target : String → Option Target) (st : Stock) (p : String) {k : Key}
    (hk : ∀ q, k ≠ .queue q) (ps : Multiset String) :
    route target (st.fill k ps) p = (route target st p).fill k ps := by
  unfold route
  split
  · next t _ =>
    unfold push
    cases t.finalized <;>
    · refine Stock.ext (fun k' => ?_) fun _ => rfl
      simp only [stored_put, stored_fill, stored_trust]
      by_cases h : k' = .queue t.queue
      · subst h
        simp [(hk t.queue).symm]
      · simp [h]
  · rfl

theorem foldl_route_fill (target : String → Option Target) (ps : List String) (st : Stock)
    {k : Key} (hk : ∀ q, k ≠ .queue q) (ps' : Multiset String) :
    ps.foldl (route target) (st.fill k ps') = (ps.foldl (route target) st).fill k ps' := by
  induction ps generalizing st with
  | nil => rfl
  | cons p ps ih => rw [List.foldl_cons, route_fill target st p hk, ih, List.foldl_cons]

theorem stored_route (target : String → Option Target) (st : Stock) (p : String) {k : Key}
    (hk : ∀ q, k ≠ .queue q) : (route target st p).stored k = st.stored k := by
  unfold route push
  split
  · next t _ => cases t.finalized <;> simp [hk]
  · rfl

def recover (cj : Cjson) (workerID : String) (st : Stock) (p : String) : Stock :=
  route (orphanTarget cj) (st.take (.inFlight workerID) p) p

def promote (cj : Cjson) (k : Key) (st : Stock) (p : String) : Stock :=
  route (dueTarget cj) (st.drop k p) p

theorem foldl_recover (workerID : String) (ps : List String) (st : Stock)
    (hps : st.stored (.inFlight workerID) = ps) :
    ps.foldl (recover cj workerID) st =
      (ps.foldl (route (orphanTarget cj)) st).fill (.inFlight workerID) 0 := by
  have hkey : ∀ q, Key.inFlight workerID ≠ .queue q := fun _ => Key.noConfusion
  induction ps generalizing st with
  | nil =>
    refine Stock.ext (fun k => ?_) fun _ => rfl
    simp only [List.foldl_nil, stored_fill]
    split
    · next h => rw [h, hps]; rfl
    · rfl
  | cons p ps ih =>
    have hrest : (recover cj workerID st p).stored (.inFlight workerID) = ps := by
      rw [recover, stored_route _ _ _ hkey]
      simp [hps]
    rw [List.foldl_cons, ih _ hrest, recover, take, route_fill _ _ _ hkey,
      foldl_route_fill _ _ _ hkey, fill_fill, List.foldl_cons]

theorem foldl_promote {k : Key} (hkey : ∀ q, k ≠ .queue q) (ps : List String) (st : Stock) :
    ps.foldl (promote cj k) st =
      (ps.foldl (route (dueTarget cj)) st).fill k ((st.stored k).filter (· ∉ ps)) := by
  induction ps generalizing st with
  | nil =>
    refine Stock.ext (fun k' => ?_) fun _ => rfl
    simp only [List.foldl_nil, stored_fill, List.not_mem_nil, not_false_eq_true,
      Multiset.filter_true]
    split
    · next h => rw [h]
    · rfl
  | cons p ps ih =>
    have hstored : ((promote cj k st p).stored k).filter (· ∉ ps)
        = (st.stored k).filter (· ∉ p :: ps) := by
      rw [promote, stored_route _ _ _ hkey]
      simp [Multiset.filter_filter, and_comm]
    rw [List.foldl_cons, ih, hstored, promote, drop, route_fill _ _ _ hkey,
      foldl_route_fill _ _ _ hkey, fill_fill, List.foldl_cons]

end Stock

theorem stock_pushTarget (db : Db Key) (t : Target) :
    stock (pushTarget db t) = (stock db).push t := by
  have hpushed : stock ((db.putSet .queues (insert t.queue (db.members .queues))).putList
      (.queue t.queue) (t.data :: db.list (.queue t.queue))) = (stock db).put (.queue t.queue) t.data := by
    rw [stock_putList _ rfl, stock_putSet_queues]
    simp [Stock.put]
  unfold pushTarget Stock.push
  cases t.finalized with
  | none => exact hpushed
  | some id => simp only [stock_putStr_finalization, hpushed]

theorem stock_pushTargets (target : String → Option Target) (ps : List String) (db : Db Key) :
    stock ((ps.filterMap target).foldl pushTarget db) =
      ps.foldl (Stock.route target) (stock db) := by
  induction ps generalizing db with
  | nil => rfl
  | cons p ps ih =>
    rw [List.filterMap_cons, List.foldl_cons, Stock.route]
    cases target p with
    | none => exact ih db
    | some t => rw [List.foldl_cons, ih, stock_pushTarget]

theorem stock_requeueOrphaned (h : WellTyped db) (workerID : String) :
    WellTyped ((requeueOrphaned cj workerID).run db).db ∧
      stock ((requeueOrphaned cj workerID).run db).db =
        (db.list (.inFlight workerID)).foldl (Stock.recover cj workerID) (stock db) := by
  rw [run_requeueOrphaned h]
  refine ⟨(h.foldl_pushTarget _).del _, ?_⟩
  rw [Stock.foldl_recover _ _ _ rfl, ← stock_pushTargets, Db.del,
    stock_write _ fun _ => Key.noConfusion]
  rfl

theorem stock_enqueueScheduled (h : WellTyped db) {k : Key} (hk : k.kind = .zset) (limit : ℕ)
    (now : ℤ) :
    WellTyped ((enqueueScheduled cj k limit now).run db).db ∧
      stock ((enqueueScheduled cj k limit now).run db).db =
        (zrange (db.zset k) now limit).foldl (Stock.promote cj k) (stock db) := by
  have hqueue : ∀ q, k ≠ .queue q := by rintro q rfl; cases hk
  have hfinal : ∀ id, k ≠ .finalization id := by rintro id rfl; cases hk
  obtain ⟨db', hzset, htyped, hother, hrun⟩ := @run_enqueueScheduled cj db h k hk limit now
  rw [hrun]
  refine ⟨htyped.foldl_pushTarget _, ?_⟩
  have hremoved : stock db' =
      (stock db).fill k (((stock db).stored k).filter (· ∉ zrange (db.zset k) now limit)) := by
    refine Stock.ext (fun k' => ?_) fun id => ?_
    · rw [Stock.stored_fill]
      split
      · next heq =>
        rw [heq, stored_zset _ hk, stored_zset _ hk, hzset, dropMembers]
        simp [List.filter_map]
        rfl
      · next hne => exact congrArg (payloadsOf k') (hother k' hne)
    · exact congrArg Db.strOf (hother _ (hfinal id).symm)
  rw [stock_pushTargets, hremoved, Stock.foldl_route_fill _ _ _ hqueue,
    Stock.foldl_promote hqueue]

end Scripts

end Senna
