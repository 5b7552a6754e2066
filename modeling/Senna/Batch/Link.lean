import Senna.Batch.Legacy
import Senna.Redis.Frame
import Senna.WrongType

/-!
# Scripts that fail, on the keyspace

A client that creates a batch runs scripts on two batches, the new one and its parent, and has to
know what a script has left behind when it fails. There are three kinds of answers here.

`batch_add_child.lua` and `batch_remove_child.lua` count members. **On a parent whose counters are
numbers they do all or nothing** (`run_batchAddChild_cases`), and the second takes back what the
first has done (`run_batchRemoveChild`). On other parents `HINCRBY` can fail when the set of members
has been written already.

`batch_enqueue_jobs.lua` can be stopped by a wrong type only, and looks at all types first.

`batch_complete.lua` for an empty batch writes to the keys of that batch, until it pushes callback
jobs. So if it fails, or has no callback jobs to push, **keys that are not of that batch are as they
were** (`run_batchComplete_empty`). For the parent it may fail in the middle, but not if its metadata
can be read and its counters of callback jobs are numbers (`batchComplete_success_error`).
-/

namespace Redis

namespace Script

variable {κ α β : Type} {K : κ → Prop}

/-- An error leaves the keys of a set as they were, unless it is about a type. If the script ends
well they are as they were in one case. -/
def Discreet (K : κ → Prop) (quiet : Prop) (x : Script κ α) : Prop :=
  ∀ db, (x.run db).Ends (fun _ db' => quiet → ∀ k, K k → db' k = db k)
    fun e db' => e.IsType ∨ ∀ k, K k → db' k = db k

namespace Discreet

variable {quiet : Prop}

theorem of_leaves {x : Script κ α} (h : ∀ k, K k → x.Leaves k) : Discreet K quiet x := by
  intro db
  have hdb : ∀ k, K k → (x.run db).db k = db k := fun k hk => h k hk db
  generalize x.run db = out at hdb ⊢
  cases out with
  | ok a db' => exact fun _ => hdb
  | error e db' => exact Or.inr hdb

theorem of_onlyTypes {x : Script κ α} (hnot : ¬ quiet) (h : OnlyTypes x) : Discreet K quiet x :=
  fun db => (h db).imp (fun _ _ _ hquiet => absurd hquiet hnot) fun _ _ he => Or.inl he

theorem bind {x : Script κ α} {f : α → Script κ β} (hx : ∀ k, K k → x.Leaves k)
    (hf : ∀ a, Discreet K quiet (f a)) : Discreet K quiet (x >>= f) := by
  intro db
  have hdb : ∀ k, K k → (x.run db).db k = db k := fun k hk => hx k hk db
  rw [run_bind]
  generalize x.run db = out at hdb ⊢
  cases out with
  | ok a db' =>
    exact (hf a db').imp (fun _ _ h hquiet k hk => (h hquiet k hk).trans (hdb k hk))
      fun _ _ h => h.imp_right fun h k hk => (h k hk).trans (hdb k hk)
  | error e db' => exact Or.inr hdb

end Discreet

def Replies (P : α → Prop) (x : Script κ α) : Prop :=
  ∀ db, (x.run db).Ends (fun a _ => P a) fun _ _ => True

theorem Replies.bind {P : β → Prop} {x : Script κ α} {f : α → Script κ β}
    (hf : ∀ a, Replies P (f a)) : Replies P (x >>= f) := by
  intro db
  rw [run_bind]
  cases x.run db with
  | ok a db' => exact hf a db'
  | error e db' => trivial

theorem run_of_leaves {x : Script κ α} (h : ∀ k, x.Leaves k) (db : Db κ) :
    (∃ a, x.run db = .ok a db) ∨ ∃ e, x.run db = .error e db := by
  have hdb : (x.run db).db = db := funext fun k => h k db
  cases hrun : x.run db with
  | ok a db' =>
    rw [hrun] at hdb
    exact Or.inl ⟨a, by rw [← hdb]; rfl⟩
  | error e db' =>
    rw [hrun] at hdb
    exact Or.inr ⟨e, by rw [← hdb]; rfl⟩

namespace Leaves

theorem expect {k : κ} (what : String) (k' : κ) (t : KeyType) : (Redis.expect what k' t).Leaves k :=
  .bind (.type k') fun _ => .ite (.pure _) (.fail _)

end Leaves

end Script

end Redis

namespace Senna

namespace BatchLua

open Redis Script Batch

variable {rt : Runtime} {id p : String} {db : Db Key}

/-! ### Checks that fail -/

theorem run_expectAll_bind_error {α : Type} {checks : List (String × Key)}
    (h : ¬ ∀ c ∈ checks, db.HasType c.2 c.2.kind) (f : Unit → Script Key α) :
    ∃ e, (expectAll checks >>= f).run db = .error e db := by
  induction checks with
  | nil => exact absurd nofun h
  | cons c checks ih =>
    rw [expectAll, bind_bind]
    by_cases hc : db.HasType c.2 c.2.kind
    · rw [run_expect_bind hc]
      exact ih fun hall => h (List.forall_mem_cons.mpr ⟨hc, hall⟩)
    · exact ⟨_, run_expect_bind_error hc _ _⟩

variable {data : String}

theorem run_guarded_error {α : Type} (hbatch : db (.batch id) = some (.string data))
    {checks : List (String × Key)} (h : ¬ ∀ c ∈ checks, db.HasType c.2 c.2.kind) (missing : α)
    (body : Script Key α) : ∃ e, (guarded id checks missing body).run db = .error e db := by
  have hstring : Db.typeOf (db (.batch id)) = .string := congrArg Db.typeOf hbatch
  unfold guarded
  rw [run_type_bind, if_neg (hstring ▸ KeyType.noConfusion), run_expect_bind (Or.inr hstring)]
  exact run_expectAll_bind_error h _

/-! ### The counters of a parent -/

/-- A batch with a progress hash whose counters are numbers. -/
structure Tracked (p : String) (total pending : ℕ) (db : Db Key) : Prop where
  batch : ∃ data, db (.batch p) = some (.string data)
  hasType : db (.progress p) = some (.hash (db.hash (.progress p)))
  total : db.hash (.progress p) "total" = some (.int total)
  pending : db.hash (.progress p) "pending" = some (.int pending)

def Near (p : String) (db db' : Db Key) : Prop := ∀ k, k ≠ .progress p → db' k = db k

theorem Near.trans {db₁ db₂ : Db Key} (h : Near p db db₁) (h' : Near p db₁ db₂) : Near p db db₂ :=
  fun k hk => (h' k hk).trans (h k hk)

variable {db' : Db Key}

section Tracked

variable {total pending : ℕ}

section

variable (h : Tracked p total pending db)

include h

theorem Tracked.of_same (hbatch : db' (.batch p) = db (.batch p))
    (hprogress : db' (.progress p) = db (.progress p)) :
    Tracked p total pending db' := by
  have hhash : db'.hash (.progress p) = db.hash (.progress p) := congrArg Db.hashOf hprogress
  exact ⟨hbatch ▸ h.batch, by rw [hprogress, hhash, h.hasType], by rw [hhash, h.total],
    by rw [hhash, h.pending]⟩

theorem Tracked.typed : db.HasType (.progress p) .hash :=
  Or.inr (congrArg Db.typeOf h.hasType)

theorem Tracked.put {f : String → Option Scalar}
    {total' pending' : ℕ}
    (htotal : f "total" = some (.int total')) (hpending : f "pending" = some (.int pending')) :
    Tracked p total' pending' (db.putHash (.progress p) f) ∧
      Near p db (db.putHash (.progress p) f) := by
  have hput : db.putHash (.progress p) f (.progress p) = some (.hash f) := Db.write_self _ _ _
  have hhash : (db.putHash (.progress p) f).hash (.progress p) = f := congrArg Db.hashOf hput
  have hnear : Near p db (db.putHash (.progress p) f) := fun k hk => by
    rw [Db.putHash, Db.write_apply, if_neg hk]
  refine ⟨⟨?_, ?_, ?_, ?_⟩, hnear⟩
  · rw [hnear _ Key.noConfusion]
    exact h.batch
  · rw [hput, hhash]
  · rw [hhash, htotal]
  · rw [hhash, hpending]

theorem Tracked.count_total {n : ℤ} {total' : ℕ}
    (hn : total + n = total') :
    ∃ db', (hincrby (.progress p) "total" n).run db = .ok total' db' ∧
      Tracked p total' pending db' ∧ Near p db db' := by
  rw [run_hincrby h.typed h.total, hn]
  exact ⟨_, rfl, h.put (Function.update_self _ _ _)
    ((Function.update_of_ne (by decide) _ _).trans h.pending)⟩

theorem Tracked.count_pending {n : ℤ} {pending' : ℕ}
    (hn : pending + n = pending') :
    ∃ db', (hincrby (.progress p) "pending" n).run db = .ok pending' db' ∧
      Tracked p total pending' db' ∧ Near p db db' := by
  rw [run_hincrby h.typed h.pending, hn]
  exact ⟨_, rfl, h.put ((Function.update_of_ne (by decide) _ _).trans h.total)
    (Function.update_self _ _ _)⟩

theorem Tracked.hset {field : String} (htotal : field ≠ "total")
    (hpending : field ≠ "pending") (v : Scalar) :
    ∃ db', (Redis.hset (.progress p) field v).run db = .ok () db' ∧ Tracked p total pending db' ∧
      Near p db db' := by
  rw [run_hset h.typed]
  exact ⟨_, rfl, h.put ((Function.update_of_ne htotal.symm _ _).trans h.total)
    ((Function.update_of_ne hpending.symm _ _).trans h.pending)⟩

theorem Tracked.boolField (field : String) :
    ∃ b, (BatchLua.boolField p field).run db = .ok b db := by
  unfold BatchLua.boolField
  rw [run_bind_ok (run_hget h.typed field)]
  exact ⟨_, rfl⟩

end

theorem run_whenever {α : Type} {c : Bool} {x : Script Key α} {R : Db Key → Prop}
    (h : ∃ a db', x.run db = .ok a db' ∧ R db') (hdb : R db) :
    ∃ db', (whenever c x).run db = .ok () db' ∧ R db' := by
  obtain ⟨a, db', hrun, hdb'⟩ := h
  cases c with
  | false => exact ⟨db, rfl, hdb⟩
  | true => exact ⟨db', run_bind_ok hrun, hdb'⟩

end Tracked

/-! ### Counting callback jobs -/

def callbackCounters : List String := ["callbacks_pending", "callback_seq"]

/-- The metadata are these, and the counters of callback jobs are not texts. -/
structure Numbered (id data : String) (db : Db Key) : Prop where
  batch : db (.batch id) = some (.string data)
  numeric : ∀ f ∈ callbackCounters, ∀ s, db.hash (.progress id) f ≠ some (.text s)

theorem Numbered.of_same (h : Numbered id data db) (hbatch : db' (.batch id) = db (.batch id))
    (hprogress : db' (.progress id) = db (.progress id)) : Numbered id data db' := by
  have hhash : db'.hash (.progress id) = db.hash (.progress id) := congrArg Db.hashOf hprogress
  exact ⟨hbatch.trans h.batch, hhash ▸ h.numeric⟩

theorem Numbered.put (h : Numbered id data db) {g : String → Option Scalar}
    (hg : ∀ f ∈ callbackCounters, g f = db.hash (.progress id) f ∨ ∃ n, g f = some (.int n)) :
    Numbered id data (db.putHash (.progress id) g) := by
  have hput : db.putHash (.progress id) g (.progress id) = some (.hash g) := Db.write_self _ _ _
  have hhash : (db.putHash (.progress id) g).hash (.progress id) = g := congrArg Db.hashOf hput
  refine ⟨((Db.write_apply _ _ _ _).trans (if_neg Key.noConfusion)).trans h.batch,
    fun f hf s => ?_⟩
  rw [hhash]
  obtain hold | ⟨n, hn⟩ := hg f hf
  · rw [hold]
    exact h.numeric f hf s
  · rw [hn]
    exact nofun

theorem Numbered.update (h : Numbered id data db) (f : String) (n : ℤ) :
    Numbered id data (db.putHash (.progress id)
      (Function.update (db.hash (.progress id)) f (some (.int n)))) := by
  refine h.put fun f' _ => ?_
  by_cases heq : f' = f
  · subst heq
    exact Or.inr ⟨n, Function.update_self _ _ _⟩
  · exact Or.inl (Function.update_of_ne heq _ _)

theorem Numbered.updateAll (h : Numbered id data db) {fields : List (String × Scalar)}
    (hint : ∀ e ∈ fields, ∃ n, e.2 = .int n) :
    Numbered id data (db.putHash (.progress id)
      (fields.foldl (fun h e => Function.update h e.1 (some e.2)) (db.hash (.progress id)))) := by
  refine h.put fun f _ => ?_
  -- the last one that writes the field counts
  induction fields using List.reverseRecOn with
  | nil => exact Or.inl rfl
  | append_singleton fields e ih =>
    rw [List.foldl_append, List.foldl_cons, List.foldl_nil]
    by_cases heq : f = e.1
    · obtain ⟨n, hn⟩ := hint e (by simp)
      rw [heq, Function.update_self, hn]
      exact Or.inr ⟨n, rfl⟩
    · rw [Function.update_of_ne heq]
      exact ih fun e he => hint e (List.mem_append_left _ he)

def Steady {α : Type} (id data : String) (E : Error → Prop) (x : Script Key α) : Prop :=
  ∀ db, Numbered id data db → (x.run db).Ends (fun _ => Numbered id data) fun e _ => E e

namespace Steady

variable {α β : Type} {E : Error → Prop} {x : Script Key α} {f : α → Script Key β}

theorem pure (a : α) : Steady id data E (Pure.pure a : Script Key α) := fun _ h => h

theorem bind (hx : Steady id data E x) (hf : ∀ a, Steady id data E (f a)) :
    Steady id data E (x >>= f) :=
  fun db hdb => ends_bind ((hx db hdb).imp (fun a db' h => hf a db' h) fun _ _ h => h)

theorem whenever {c : Bool} (hx : c = true → Steady id data E x) :
    Steady id data E (BatchLua.whenever c x) := by
  cases c with
  | false => exact .pure _
  | true => exact .bind (hx rfl) fun _ => .pure _

theorem of_leaves (hx : ∀ db, (x.run db).Ends (fun _ _ => True) fun e _ => E e)
    (hbatch : x.Leaves (.batch id)) (hprogress : x.Leaves (.progress id)) :
    Steady id data E x := by
  intro db hdb
  have hends := hx db
  have hbatch := hbatch db
  have hprogress := hprogress db
  generalize x.run db = out at hends hbatch hprogress ⊢
  cases out with
  | ok a db' => exact hdb.of_same hbatch hprogress
  | error e db' => exact hends

theorem hincrby (htype : ∀ e : Error, e.IsType → E e) {f : String}
    (hf : f ∈ callbackCounters ∨ E (.reply "ERR hash value is not an integer")) (n : ℤ) :
    Steady id data E (Redis.hincrby (.progress id) f n) := by
  intro db hdb
  by_cases h : db.HasType (.progress id) .hash
  · rw [Redis.hincrby, run_onHash h]
    split
    · next s hs => exact hf.resolve_left fun hmem => hdb.numeric f hmem s hs
    · exact hdb.update f _
    · exact hdb.update f _
  · rw [Redis.hincrby, run_onHash_wrongType h]
    exact htype _ trivial

theorem hsetAll (htype : ∀ e : Error, e.IsType → E e) {fields : List (String × Scalar)}
    (hint : ∀ e ∈ fields, ∃ n, e.2 = .int n) :
    Steady id data E (Redis.hsetAll (.progress id) fields) := by
  intro db hdb
  by_cases h : db.HasType (.progress id) .hash
  · rw [run_hsetAll h]
    exact hdb.updateAll hint
  · rw [Redis.hsetAll, run_onHash_wrongType h]
    exact htype _ trivial

end Steady

/-! ### Linking and unlinking -/

/-- The progress hash and the members of a batch are the only keys that have changed. -/
def Around (p : String) (db db' : Db Key) : Prop :=
  ∀ k, k ≠ .progress p → k ≠ .jobs p → db' k = db k

section Link

variable {total pending : ℕ}

theorem Tracked.putSet (h : Tracked p total pending db) (s : Finset String) :
    Tracked p total pending (db.putSet (.jobs p) s) :=
  h.of_same ((Db.write_apply _ _ _ _).trans (if_neg Key.noConfusion))
    ((Db.write_apply _ _ _ _).trans (if_neg Key.noConfusion))

theorem Near.members {s : Finset String} (h : Near p (db.putSet (.jobs p) s) db') :
    db'.HasType (.jobs p) .set ∧ db'.members (.jobs p) = s ∧ Around p db db' := by
  have hjobs : db' (.jobs p) = Db.ofSet s :=
    (h _ Key.noConfusion).trans (Db.write_self _ _ _)
  refine ⟨?_, ?_, fun k hk hk' => (h k hk).trans ((Db.write_apply _ _ _ _).trans (if_neg hk'))⟩
  · unfold Db.HasType
    rw [hjobs]
    exact Db.typeOf_ofSet s
  · rw [Db.members, hjobs, Db.setOf_ofSet]

theorem addChild_steady : Steady p data (fun _ => True) (addChild p id) := by
  have hends {α : Type} (x : Script Key α) (db : Db Key) :
      (x.run db).Ends (fun _ _ => True) fun _ _ => True := by
    cases x.run db <;> trivial
  have hbool (field : String) : Steady p data (fun _ => True) (boolField p field) :=
    .of_leaves (hends _) (.bind (.hget _ _) fun _ => .pure _) (.bind (.hget _ _) fun _ => .pure _)
  refine .bind (hbool _) fun invalidated => ?_
  split
  · exact .pure _
  · refine .bind (.of_leaves (hends _) (.sadd Key.noConfusion _) (.sadd Key.noConfusion _))
      fun added => ?_
    split
    · exact .pure _
    · refine .bind (.hincrby (fun _ _ => trivial) (Or.inr trivial) _) fun _ =>
        .bind (.hincrby (fun _ _ => trivial) (Or.inr trivial) _) fun _ => .bind (hbool _) fun _ =>
          .bind (.whenever fun _ => .hsetAll (fun _ _ => trivial) ?_) fun _ => .pure _
      exact List.forall_mem_cons.mpr ⟨⟨0, rfl⟩, List.forall_mem_singleton.mpr ⟨0, rfl⟩⟩

theorem run_addChild_cases (h : Tracked p total pending db) (hjobs : db.HasType (.jobs p) .set)
    (hnew : id ∉ db.members (.jobs p)) :
    (addChild p id).run db = .ok (some .batchInvalidated) db ∨
      ∃ db', (addChild p id).run db = .ok (some .success) db' ∧
        Tracked p (total + 1) (pending + 1) db' ∧ db'.HasType (.jobs p) .set ∧
        db'.members (.jobs p) = insert id (db.members (.jobs p)) ∧ Around p db db' := by
  unfold addChild
  obtain ⟨invalidated, hinvalidated⟩ := h.boolField "invalidated"
  rw [run_bind_ok hinvalidated]
  cases invalidated with
  | true => exact Or.inl rfl
  | false =>
    -- the set of members, then both counters, then the flags
    obtain ⟨db₂, hrun₂, h₂, hnear₂⟩ := (h.putSet (insert id (db.members (.jobs p)))).count_total
      (show (total : ℤ) + 1 = ((total + 1 : ℕ) : ℤ) from rfl)
    obtain ⟨db₃, hrun₃, h₃, hnear₃⟩ := h₂.count_pending
      (show (pending : ℤ) + 1 = ((pending + 1 : ℕ) : ℤ) from rfl)
    obtain ⟨completeFired, hfired⟩ := h₃.boolField "complete_fired"
    have hreset : ∃ a db', (hsetAll (.progress p)
        [("complete_fired", .int 0), ("success_fired", .int 0)]).run db₃ = .ok a db' ∧
          Tracked p (total + 1) (pending + 1) db' ∧ Near p db₃ db' := by
      rw [run_hsetAll h₃.typed]
      exact ⟨(), _, rfl, h₃.put h₃.total h₃.pending⟩
    obtain ⟨db₄, hrun₄, h₄, hnear₄⟩ :=
      run_whenever (c := completeFired) hreset ⟨h₃, fun _ _ => rfl⟩
    refine Or.inr ⟨db₄, ?_, h₄, ((hnear₂.trans hnear₃).trans hnear₄).members⟩
    rw [run_ite, if_neg Bool.false_ne_true, run_bind_ok (run_sadd hjobs id), if_neg hnew, run_ite,
      if_neg Nat.one_ne_zero, run_bind_ok hrun₂, run_bind_ok hrun₃, run_bind_ok hfired,
      run_bind_ok hrun₄]
    rfl

theorem run_decrement {field : String} {n : ℕ}
    (h : (hincrby (.progress p) field (-1)).run db = .ok (n : ℤ) db') :
    (decrement p field).run db = .ok (n : ℤ) db' := by
  have hn : ¬ (n : ℤ) < 0 := by omega
  unfold decrement
  rw [run_bind_ok h, decide_eq_false hn, if_neg hn]
  rfl

theorem run_removeChild (h : Tracked p (total + 1) (pending + 1) db)
    (hjobs : db.HasType (.jobs p) .set) (hmember : id ∈ db.members (.jobs p)) :
    ∃ db', (removeChild p id).run db = .ok (some .success) db' ∧ Tracked p total pending db' ∧
      db'.HasType (.jobs p) .set ∧ db'.members (.jobs p) = (db.members (.jobs p)).erase id ∧
      Around p db db' := by
  obtain ⟨db₂, hrun₂, h₂, hnear₂⟩ := (h.putSet ((db.members (.jobs p)).erase id)).count_total
    (show ((total + 1 : ℕ) : ℤ) + -1 = (total : ℤ) by omega)
  obtain ⟨db₃, hrun₃, h₃, hnear₃⟩ := h₂.count_pending
    (show ((pending + 1 : ℕ) : ℤ) + -1 = (pending : ℤ) by omega)
  have hnear := hnear₂.trans hnear₃
  unfold removeChild
  rw [run_bind_ok (run_srem hjobs id), if_pos hmember, run_ite, if_neg Nat.one_ne_zero,
    run_bind_ok (run_decrement hrun₂), run_bind_ok (run_decrement hrun₃), run_ite]
  -- without this child the batch may be complete; the flags that are set then are no counters
  by_cases hzero : (pending : ℤ) = 0
  · rw [if_pos hzero]
    obtain ⟨db₄, hrun₄, h₄, hnear₄⟩ :=
      h₃.hset (show "complete_fired" ≠ "total" by decide) (by decide) (.int 1)
    obtain ⟨dead, hdead⟩ := h₄.boolField "dead"
    obtain ⟨invalidated, hinvalidated⟩ := h₄.boolField "invalidated"
    have hfire : ∃ a db', (hset (.progress p) "success_fired" (.int 1)).run db₄ = .ok a db' ∧
        Tracked p total pending db' ∧ Near p db₄ db' := by
      obtain ⟨db₅, hrun₅, h₅⟩ :=
        h₄.hset (show "success_fired" ≠ "total" by decide) (by decide) (.int 1)
      exact ⟨(), db₅, hrun₅, h₅⟩
    obtain ⟨db₅, hrun₅, h₅, hnear₅⟩ :=
      run_whenever (c := !dead && !invalidated) hfire ⟨h₄, fun _ _ => rfl⟩
    refine ⟨db₅, ?_, h₅, ((hnear.trans hnear₄).trans hnear₅).members⟩
    rw [run_bind_ok hrun₄, run_bind_ok hdead, run_bind_ok hinvalidated, run_bind_ok hrun₅]
    rfl
  · rw [if_neg hzero]
    exact ⟨db₃, rfl, h₃, hnear.members⟩

/-- The counters of a batch are numbers, with a progress hash or in the metadata. -/
inductive Counted (rt : Runtime) (p : String) (total pending : ℕ) (db : Db Key) : Prop
  | tracked (h : Tracked p total pending db)
  /-- The metadata is that of a batch from before there were progress hashes. -/
  | old (s : Metadata) (batch : db (.batch p) = some (.string s.marshal))
    (progress : db (.progress p) = none) (cjson : rt.decode s.marshal = some s.toJson)
    (small : s.Small) (total : s.total = total) (pending : s.pending = pending)

/-- The total and the pending members, as `BatchStatus` reports them. -/
def counts (p : String) (db : Db Key) : Option (ℤ × ℤ) :=
  (refresh p db).map fun c => (c.total, c.pending)

theorem counts_of_same (hbatch : db' (.batch p) = db (.batch p))
    (hprogress : db' (.progress p) = db (.progress p)) : counts p db' = counts p db := by
  unfold counts refresh
  rw [hbatch, hprogress]

theorem Counted.counts (h : Counted rt p total pending db)
    (hdata : db (.batch p) = some (.string data)) :
    counts p db = (decodeBatchState data).map fun _ => ((total : ℤ), (pending : ℤ)) := by
  unfold BatchLua.counts refresh
  cases h with
  | tracked h =>
    rw [hdata, h.hasType]
    simp only [Option.map_map]
    refine congrFun (congrArg Option.map (funext fun c => ?_)) _
    simp only [Function.comp_apply, applyBatchProgress, h.total, h.pending, numberValue]
  | old s batch progress cjson small htotal hpending =>
    rw [hdata, progress]
    obtain rfl : s.marshal = data := by
      rw [batch] at hdata
      exact Value.string.inj (Option.some.inj hdata)
    change Option.map _ (decodeBatchState s.marshal) = _
    rw [decodeBatchState_marshal small, Option.map_some, Option.map_some]
    exact congrArg some (Prod.ext htotal hpending)

theorem link_checks (hprogress : db.HasType (.progress p) .hash)
    (hjobs : db.HasType (.jobs p) .set) :
    ∀ c ∈ [("batch progress", Key.progress p), ("batch jobs", Key.jobs p)],
      db.HasType c.2 c.2.kind :=
  List.forall_mem_cons.mpr ⟨hprogress, List.forall_mem_cons.mpr ⟨hjobs, nofun⟩⟩

theorem run_batchAddChild_error (hbatch : db (.batch p) = some (.string data))
    (h : ¬ (db.HasType (.progress p) .hash ∧ db.HasType (.jobs p) .set)) :
    ∃ e, (batchAddChild rt p id).run db = .error e db := by
  refine run_guarded_error hbatch (fun hall => h ?_) _ _
  exact ⟨hall ("batch progress", .progress p) (by simp), hall ("batch jobs", .jobs p) (by simp)⟩

/-- **`batch_add_child.lua` adds a new child or does nothing.** -/
theorem run_batchAddChild_cases (h : Counted rt p total pending db)
    (hnew : id ∉ db.members (.jobs p)) :
    (∃ e, (batchAddChild rt p id).run db = .error e db) ∨
      (∃ db', (batchAddChild rt p id).run db = .ok (some .batchInvalidated) db' ∧
        Counted rt p total pending db' ∧ Near p db db') ∨
      ∃ db', (batchAddChild rt p id).run db = .ok (some .success) db' ∧
        Tracked p (total + 1) (pending + 1) db' ∧ db'.HasType (.jobs p) .set ∧
        db'.members (.jobs p) = insert id (db.members (.jobs p)) ∧ Around p db db' ∧
        ∀ data, Numbered p data db → Numbered p data db' := by
  obtain ⟨data, hdata⟩ : ∃ data, db (.batch p) = some (.string data) := by
    cases h with
    | tracked h => exact h.batch
    | old s batch => exact ⟨_, batch⟩
  have hprogress : db.HasType (.progress p) .hash := by
    cases h with
    | tracked h => exact h.typed
    | old s batch progress => exact Or.inl (congrArg Db.typeOf progress)
  have hsteady {db db' : Db Key} {reply : Option AddChildReply}
      (hrun : (addChild p id).run db = .ok reply db') (data : String)
      (hdb : Numbered p data db) : Numbered p data db' := by
    have hends := @addChild_steady id p data db hdb
    rw [hrun] at hends
    exact hends
  by_cases hjobs : db.HasType (.jobs p) .set
  · refine Or.inr ?_
    unfold batchAddChild
    rw [run_guarded hdata (link_checks hprogress hjobs)]
    cases h with
    | tracked h =>
      rw [run_bind_ok (run_migrate_new h.hasType _)]
      refine (run_addChild_cases h hjobs hnew).imp (fun hrun =>
        ⟨db, hrun, .tracked h, fun _ _ => rfl⟩) ?_
      rintro ⟨db', hrun, h', htyped, hmembers, haround⟩
      exact ⟨db', hrun, h', htyped, hmembers, haround, hsteady hrun⟩
    | old s batch progress cjson small htotal hpending =>
      rw [run_bind_ok (run_migrate_old cjson small batch progress _)]
      -- from here on it is a batch with a progress hash
      have hnear : Near p db (renewed s db p) := fun k hk =>
        (Db.write_apply _ _ _ _).trans (if_neg hk)
      have hhash : (renewed s db p).hash (.progress p) = progressHash s.toBatchState :=
        congrArg Db.hashOf renewed_progress
      have htracked : Tracked p total pending (renewed s db p) := by
        refine ⟨⟨data, (hnear _ Key.noConfusion).trans hdata⟩, ?_, ?_, ?_⟩
        · rw [hhash, renewed_progress]
        · rw [hhash, ← htotal]
          rfl
        · rw [hhash, ← hpending]
          rfl
      have hmembers : (renewed s db p).members (.jobs p) = db.members (.jobs p) :=
        congrArg Db.setOf (hnear _ Key.noConfusion)
      have hjobs' : (renewed s db p).HasType (.jobs p) .set :=
        hjobs.write fun heq => Key.noConfusion heq
      obtain hinvalidated | ⟨db', hrun, h', htyped, hmembers', haround⟩ :=
        run_addChild_cases htracked hjobs' (hmembers ▸ hnew)
      · exact Or.inl ⟨_, hinvalidated, .tracked htracked, hnear⟩
      · refine Or.inr ⟨db', hrun, h', htyped, hmembers'.trans (by rw [hmembers]), ?_, ?_⟩
        · exact fun k hk hk' => (haround k hk hk').trans (hnear k hk)
        · refine fun data hdb => hsteady hrun data (hdb.put fun f hf => Or.inr ?_)
          simp only [callbackCounters, List.mem_cons, List.not_mem_nil, or_false] at hf
          obtain rfl | rfl := hf
          · exact ⟨s.callbacksPending, rfl⟩
          · exact ⟨s.callbackSeq, rfl⟩
  · exact Or.inl (run_batchAddChild_error hdata fun hboth => hjobs hboth.2)

/-- **`batch_remove_child.lua` takes a link back.** -/
theorem run_batchRemoveChild (h : Tracked p (total + 1) (pending + 1) db)
    (hjobs : db.HasType (.jobs p) .set) (hmember : id ∈ db.members (.jobs p)) :
    ∃ db', (batchRemoveChild rt p id).run db = .ok (some .success) db' ∧
      Tracked p total pending db' ∧ db'.HasType (.jobs p) .set ∧
      db'.members (.jobs p) = (db.members (.jobs p)).erase id ∧ Around p db db' := by
  obtain ⟨data, hdata⟩ := h.batch
  unfold batchRemoveChild
  rw [run_guarded hdata (link_checks h.typed hjobs), run_bind_ok (run_migrate_new h.hasType _)]
  exact run_removeChild h hjobs hmember

end Link

/-! ### Enqueueing the jobs -/

/-- **`batch_enqueue_jobs.lua` does all or nothing.** -/
theorem batchEnqueueJobs_error {jobs : List NewJob} {e : Error}
    (h : (batchEnqueueJobs id jobs).run db = .error e db') : db' = db := by
  have hqueues (jobs : List NewJob) : OnlyTypes (expectQueues jobs) := by
    induction jobs with
    | nil => exact .pure _
    | cons job jobs ih => exact .bind (.expect _ _ _) fun _ => ih
  have hpush (jobs : List NewJob) : OnlyTypes (pushJobs id jobs) := by
    induction jobs with
    | nil => exact .pure _
    | cons job jobs ih => exact .bind (.sadd _ _) fun _ => .bind (.lpush _ _) fun _ => ih
  -- no command here fails but for a type, and every type is checked before the first write
  have htypes : OnlyTypes (batchEnqueueJobs id jobs) :=
    .bind (.expect _ _ _) fun _ => .bind (hqueues _) fun _ => hpush _
  have he := htypes db
  rw [h] at he
  exact ((batchEnqueueJobs_intact id jobs).unchanged h he).symm

/-! ### Completing an empty batch -/

def Key.Foreign (id : String) : Key → Prop
  | .batch i | .progress i | .jobs i | .failed i | .callbacks i => i ≠ id
  | .deadBatches => False
  | .batches | .queues | .queue _ => True

section Foreign

variable {k : Key}

theorem Key.Foreign.ne {k' : Key} (h : k.Foreign id) (h' : ¬ k'.Foreign id) : k ≠ k' :=
  fun heq => h' (heq ▸ h)

theorem not_foreign_progress : ¬ (Key.progress id).Foreign id := fun h => h rfl

theorem not_foreign_jobs : ¬ (Key.jobs id).Foreign id := fun h => h rfl

theorem not_foreign_failed : ¬ (Key.failed id).Foreign id := fun h => h rfl

theorem not_foreign_deadBatches : ¬ Key.deadBatches.Foreign id := fun h => h

theorem field_leaves (v : Json) (name : String) : (field v name).Leaves k := by
  unfold field
  split
  · exact .pure _
  · exact .fail _

theorem argument_leaves (v : Option Json) : (argument rt v).Leaves k := by
  unfold argument
  split
  · exact .pure _
  · exact .pure _
  · exact .fail _

theorem loadBatch_leaves : (loadBatch rt id).Leaves k := by
  refine .bind (.get _) fun data => ?_
  split
  · exact .pure _
  · exact .fail _

theorem whenever_leaves {α : Type} {c : Bool} {x : Script Key α} (h : x.Leaves k) :
    (whenever c x).Leaves k := .ite (.bind h fun _ => .pure _) (.pure _)

theorem makeCallback_leaves (callbackType : Batch.CallbackType) (config : Json) (plan : Plan) :
    (makeCallback callbackType config plan).Leaves k :=
  .bind (field_leaves _ _) fun _ => .bind (field_leaves _ _) fun _ => .pure _

theorem planCompletion_leaves (plan : Plan) : (planCompletion rt id plan).Leaves k := by
  unfold planCompletion
  refine .ite (.bind loadBatch_leaves fun metadata => .bind (field_leaves _ _) fun _ => ?_)
    (.pure _)
  -- with a complete callback or without one, the success callback is next
  split
  all_goals
    refine .bind ?_ fun _ => .ite (.bind (field_leaves _ _) fun _ => ?_) (.pure _)
    · first | exact makeCallback_leaves _ _ _ | exact .pure _
    · split
      · exact makeCallback_leaves _ _ _
      · exact .pure _

theorem callbackTarget_leaves (plan : Plan) : (callbackTarget rt id plan).Leaves k := by
  have hqueue : (callbackQueue rt id).Leaves k := by
    refine .bind (.hget _ _) fun _ => ?_
    split
    · exact .pure _
    · refine .bind loadBatch_leaves fun _ => .bind (field_leaves _ _) fun _ => ?_
      split <;> exact .pure _
  exact .ite (.bind hqueue fun _ => .bind (.expect _ _ _) fun _ => .bind (.expect _ _ _) fun _ =>
    .bind (.expect _ _ _) fun _ => .pure _) (.pure _)

theorem encodeCallbacks_leaves (hk : k.Foreign id) (queue now : String) (batchID : Option Json)
    (parentID : Option String) (callbacks : List Callback) :
    (encodeCallbacks rt id queue now batchID parentID callbacks).Leaves k := by
  induction callbacks with
  | nil => exact .pure _
  | cons callback callbacks ih =>
    rw [encodeCallbacks]
    refine .bind (.hincrby (hk.ne not_foreign_progress) _ _) fun _ =>
      .bind (argument_leaves _) fun _ => ?_
    dsimp only
    split
    · exact .bind ih fun _ => .pure _
    · exact .fail _

theorem pushCallbacks_onlyTypes (queue : String) (jobs : List (String × String)) :
    OnlyTypes (pushCallbacks id queue jobs) := by
  induction jobs with
  | nil => exact .pure _
  | cons job jobs ih => exact .bind (.sadd _ _) fun _ => .bind (.lpush _ _) fun _ => ih

theorem pushCallbacks_leaves (hcallbacks : k ≠ .callbacks id) {queue : String}
    (hqueue : k ≠ .queue queue) (jobs : List (String × String)) :
    (pushCallbacks id queue jobs).Leaves k := by
  induction jobs with
  | nil => exact .pure _
  | cons job jobs ih =>
    exact .bind (.sadd hcallbacks _) fun _ => .bind (.lpush hqueue _) fun _ => ih

theorem recordCompletion_discreet (jobID : String) (result : Batch.Result) (now : String)
    (before : Before) (plan : Plan) (queue : String) :
    Discreet (Key.Foreign id) (plan.callbacks = [])
      (recordCompletion rt id jobID result now before plan queue) := by
  have hpush (jobs : List (String × String)) : Discreet (Key.Foreign id) (plan.callbacks = [])
      (whenever (!plan.callbacks.isEmpty) (do
        let _ ← sadd .queues queue
        pushCallbacks id queue jobs)) := by
    by_cases hnone : plan.callbacks = []
    · rw [hnone]
      exact .of_leaves fun _ _ => .pure _
    · have hsome : (!plan.callbacks.isEmpty) = true := by simpa using hnone
      rw [hsome]
      exact .of_onlyTypes hnone
        (.bind (.bind (.sadd _ _) fun _ => pushCallbacks_onlyTypes _ _) fun _ => .pure _)
  -- behind the name of the batch
  have hrest (batchID : Option Json) : Discreet (Key.Foreign id) (plan.callbacks = []) (do
      whenever plan.addDeadBatch (do
        let name ← argument rt batchID
        sadd .deadBatches (print name))
      let jobs ← encodeCallbacks rt id queue now batchID before.parentID plan.callbacks
      whenever (!plan.callbacks.isEmpty) (do
        let _ ← sadd .queues queue
        pushCallbacks id queue jobs)) :=
    .bind (fun k hk => whenever_leaves (.bind (argument_leaves _) fun _ =>
      .sadd (hk.ne not_foreign_deadBatches) _)) fun _ =>
        .bind (fun k hk => encodeCallbacks_leaves hk _ _ _ _ _) hpush
  -- the counters and the two sets are keys of the batch
  have hcount {α : Type} {c : Bool} {x : Script Key α} (hx : ∀ k, k.Foreign id → x.Leaves k)
      (k : Key) (hk : k.Foreign id) : (whenever c x).Leaves k := whenever_leaves (hx k hk)
  refine .bind (hcount fun k hk => .hincrby (hk.ne not_foreign_progress) _ _) fun _ => ?_
  refine .bind (hcount fun k hk => .hincrby (hk.ne not_foreign_progress) _ _) fun _ => ?_
  refine .bind (hcount fun k hk => .hsetAll (hk.ne not_foreign_progress) _) fun _ => ?_
  refine .bind (hcount fun k hk => .hincrby (hk.ne not_foreign_progress) _ _) fun _ => ?_
  refine .bind (hcount fun k hk => .srem (hk.ne not_foreign_jobs) _) fun _ => ?_
  refine .bind (hcount fun k hk => .sadd (hk.ne not_foreign_failed) _) fun _ => ?_
  split
  · exact hrest _
  · exact .bind (fun k hk => loadBatch_leaves) fun _ => .bind (fun k hk => field_leaves _ _) hrest

theorem batchComplete_type_error {jobID now : String} {result : Batch.Result} {e : Error}
    (hprogress : db (.progress id) ≠ none)
    (hrun : (batchComplete rt id jobID result now).run db = .error e db') (he : e.IsType) :
    db' = db := by
  have hcall : ((Call.complete jobID result now).script rt id).run db = .error e db' := by
    rw [Call.script, run_bind, hrun]
  obtain heq | hcreated := (Call.intact rt id (.complete jobID result now)).unchanged hcall he
  · exact heq
  · exact absurd hcreated.absent hprogress

def AboutMember (reply : Option CompleteReply) : Prop :=
  reply = some .alreadyProcessed ∨ ∃ r, reply = some (.recorded r)

theorem batchComplete_replies {jobID now : String} {result : Batch.Result}
    (hbatch : db (.batch id) = some (.string data)) (hresult : result ≠ .emptySuccess) :
    ((batchComplete rt id jobID result now).run db).Ends (fun reply _ => AboutMember reply)
      fun _ _ => True := by
  have hstring : Db.typeOf (db (.batch id)) = .string := congrArg Db.typeOf hbatch
  have hrecord (before : Before) (plan : Plan) (queue : String) : Replies AboutMember
      (recordCompletion rt id jobID result now before plan queue >>= fun _ =>
        pure (some (.recorded (completeReply before plan)))) :=
    .bind fun _ _ => Or.inr ⟨_, rfl⟩
  unfold batchComplete guarded
  rw [run_type_bind, if_neg (hstring ▸ KeyType.noConfusion)]
  refine Replies.bind (fun _ => .bind fun _ => .bind fun _ => ?_) db
  refine .bind fun progress => .bind fun members => ?_
  -- only an empty batch can be refused as not empty
  unfold refusal
  dsimp only
  rw [if_neg hresult, bind_bind]
  refine .bind fun member => ?_
  cases member with
  | false => exact fun _ => Or.inl rfl
  | true =>
    intro db
    rw [run_pure_bind, if_pos rfl]
    refine Replies.bind (fun plan => .bind fun plan => .bind fun queue => ?_) db
    split
    · exact .bind fun _ => hrecord _ _ _
    · exact hrecord _ _ _

/-! ### What is planned -/

def callbackFields : List String := ["on_complete", "on_success"]

def Callback.Configured (metadata : Json) (c : Callback) : Prop :=
  ∃ name ∈ callbackFields, ∃ config, index name metadata = some (some config) ∧
    index "options" config = some c.options

/-- What a plan owes to the result of the member, and what to the metadata. -/
structure Plan.Follows (rt : Runtime) (id : String) (db : Db Key) (plan plan' : Plan) : Prop where
  successesDelta : plan'.successesDelta = plan.successesDelta
  failuresDelta : plan'.failuresDelta = plan.failuresDelta
  addFailedJob : plan'.addFailedJob = plan.addFailedJob
  addDeadBatch : plan'.addDeadBatch = plan.addDeadBatch
  dead : plan'.dead = plan.dead
  invalidated : plan'.invalidated = plan.invalidated
  callbacks : ∀ c ∈ plan'.callbacks, c ∈ plan.callbacks ∨
    ∃ metadata, (loadBatch rt id).run db = .ok metadata db ∧ c.Configured metadata

theorem Plan.Follows.fire {plan plan' : Plan} (h : plan.Follows rt id db plan') (pending : ℤ)
    (completeFired successFired : Bool) :
    plan.Follows rt id db { plan' with pending, completeFired, successFired } :=
  ⟨h.1, h.2, h.3, h.4, h.5, h.6, h.7⟩

theorem eq_of_truthy {v : Option Json} {config : Json} (h : truthy v = some config) :
    v = some config := by
  unfold truthy at h
  split at h
  · cases h
  · exact h

section Plan

variable {metadata : Json} (hload : (loadBatch rt id).run db = .ok metadata db) {plan : Plan}
include hload

theorem makeCallback_follows {name : String} (hname : name ∈ callbackFields) {config : Json}
    (hconfig : index name metadata = some (some config)) (callbackType : CallbackType)
    {plan' : Plan} (h : plan.Follows rt id db plan') :
    ((makeCallback callbackType config plan').run db).Ends
      (fun plan'' db' => plan.Follows rt id db plan'' ∧ db' = db) fun _ _ => True := by
  unfold makeCallback field
  split
  · rw [run_pure_bind]
    split
    · next hoptions =>
      refine ⟨⟨h.1, h.2, h.3, h.4, h.5, h.6, fun c hc => ?_⟩, rfl⟩
      obtain hold | hnew := List.mem_append.mp hc
      · exact h.callbacks c hold
      · obtain rfl := List.mem_singleton.mp hnew
        exact Or.inr ⟨metadata, hload, name, hname, config, hconfig, hoptions⟩
    · trivial
  · trivial

end Plan

theorem planCompletion_follows (plan : Plan) (db : Db Key) :
    ((planCompletion rt id plan).run db).Ends (fun plan' _ => plan.Follows rt id db plan')
      fun _ _ => True := by
  have hplan : plan.Follows rt id db plan := ⟨rfl, rfl, rfl, rfl, rfl, rfl, fun _ hc => Or.inl hc⟩
  unfold planCompletion
  dsimp only
  generalize (if plan.pending < 0 then 0 else plan.pending) = pending
  split
  · obtain ⟨metadata, hload⟩ | ⟨e, hload⟩ := run_of_leaves (fun _ => loadBatch_leaves) db
    · rw [run_bind_ok hload]
      unfold field
      split
      · next v hv =>
        rw [run_pure_bind]
        -- with a complete callback or without one, the success callback is next
        split
        all_goals
          refine ends_bind (Outcome.Ends.imp
            (P := fun plan' db' => plan.Follows rt id db plan' ∧ db' = db) ?_
            (fun plan' db' h => ?_) fun _ _ h => h)
          · first
            | next config hconfig =>
              exact makeCallback_follows hload (by simp [callbackFields])
                (hv.trans (congrArg some (eq_of_truthy hconfig))) .complete (hplan.fire _ _ _)
            | exact ⟨hplan.fire _ _ _, rfl⟩
          · obtain ⟨h, rfl⟩ := h
            rw [run_ite]
            split
            · split
              · next v' hv' =>
                rw [run_pure_bind]
                split
                · next config hconfig =>
                  exact (makeCallback_follows hload (by simp [callbackFields])
                    (hv'.trans (congrArg some (eq_of_truthy hconfig))) .success (h.fire _ _ _)).imp
                    (fun _ _ h => h.1) fun _ _ h => h
                · exact h
              · trivial
            · exact h
      · trivial
    · rw [run_bind, hload]
      trivial
  · exact hplan.fire _ _ _

/-! ### Completing the parent -/

/-- The metadata of a batch can be read by the scripts, and its callback jobs can be written. -/
structure Sound (rt : Runtime) (data : String) (metadata : Json) : Prop where
  decode : rt.decode data = some metadata
  name : ∃ s, index "id" metadata = some (some (.str s))
  encode : ∀ c : Callback, c.Configured metadata → ∀ jid queue now s parentID,
    rt.encode (callbackJob jid c queue now (.str s) parentID) ≠ none

theorem encodeCallbacks_steady {callbacks : List Callback} {queue now s : String}
    {parentID : Option String} (hencode : ∀ c ∈ callbacks, ∀ jid,
      rt.encode (callbackJob jid c queue now (.str s) parentID) ≠ none) :
    Steady id data Error.IsType
      (encodeCallbacks rt id queue now (some (.str s)) parentID callbacks) := by
  induction callbacks with
  | nil => exact .pure _
  | cons callback callbacks ih =>
    rw [encodeCallbacks]
    refine .bind (.hincrby (fun _ h => h) (Or.inl (by simp [callbackCounters])) _) fun seq => ?_
    refine .bind (.pure _) fun name => ?_
    dsimp only
    split
    · exact .bind (ih fun c hc => hencode c (List.mem_cons_of_mem _ hc)) fun _ => .pure _
    · next hnone => exact absurd hnone (hencode callback List.mem_cons_self _)

theorem progressUpdates_int {result : Batch.Result} {plan : Plan} :
    ∀ e ∈ progressUpdates result plan, ∃ n, e.2 = .int n := by
  have hif (c : Bool) (f : String) (n : ℤ) :
      ∀ e ∈ (if c then [(f, Scalar.int n)] else []), ∃ n, e.2 = .int n := by
    cases c with
    | false => exact nofun
    | true => exact List.forall_mem_singleton.mpr ⟨n, rfl⟩
  unfold progressUpdates
  simp only [List.forall_mem_append]
  exact ⟨⟨⟨⟨⟨hif _ _ _, hif _ _ _⟩, hif _ _ _⟩, hif _ _ _⟩, hif _ _ _⟩, hif _ _ _⟩

section Complete

variable {metadata : Json} (hsound : Sound rt data metadata)
include hsound

/-- **The writes of a success fail for a type, or at the first of them.** -/
theorem recordCompletion_success (hdb : Numbered id data db) (jobID now queue : String)
    {before : Before} {plan : Plan}
    (hplan : ({ Plan.init before with successesDelta := 1, pending := before.pending - 1 } :
      Plan).Follows rt id db plan) :
    ((recordCompletion rt id jobID .success now before plan queue).run db).Ends
      (fun _ _ => True) fun e db' => e.IsType ∨ db' = db := by
  have hload := run_loadBatch hsound.decode hdb.batch
  have hdelta : plan.successesDelta = 1 := hplan.successesDelta
  have hzero : plan.failuresDelta = 0 := hplan.failuresDelta
  have hfailed : plan.addFailedJob = false := hplan.addFailedJob
  have hdead : plan.addDeadBatch = false := hplan.addDeadBatch
  -- all callbacks are those of the metadata
  have hencode (s : String) (c : Callback) (hc : c ∈ plan.callbacks) (jid : String) :
      rt.encode (callbackJob jid c queue now (.str s) before.parentID) ≠ none := by
    obtain hnone | ⟨metadata', hload', hconfigured⟩ := hplan.callbacks c hc
    · exact absurd hnone List.not_mem_nil
    · obtain rfl : metadata' = metadata := by
        rw [hload] at hload'
        exact (Outcome.ok.inj hload').1.symm
      exact hsound.encode c hconfigured _ _ _ _ _
  have hskip {P : Prop} (h : false = true) : P := Bool.noConfusion h
  -- behind the name of the batch
  have hrest (s : String) : Steady id data Error.IsType (do
      whenever plan.addDeadBatch (do
        let name ← argument rt (some (.str s))
        sadd .deadBatches (print name))
      let jobs ← encodeCallbacks rt id queue now (some (.str s)) before.parentID plan.callbacks
      whenever (!plan.callbacks.isEmpty) (do
        let _ ← sadd .queues queue
        pushCallbacks id queue jobs)) := by
    rw [hdead]
    refine .bind (.whenever hskip) fun _ => .bind (encodeCallbacks_steady (hencode s))
      fun jobs => .whenever fun _ => ?_
    exact .bind (.of_leaves (OnlyTypes.sadd _ _) (.sadd Key.noConfusion _)
      (.sadd Key.noConfusion _)) fun _ => .of_leaves (pushCallbacks_onlyTypes _ _)
        (pushCallbacks_leaves Key.noConfusion Key.noConfusion _)
        (pushCallbacks_leaves Key.noConfusion Key.noConfusion _)
  have hfirst : ((whenever true (hincrby (.progress id) "successes" 1)).run db).Ends
      (fun _ => Numbered id data) fun e db' => e.IsType ∨ db' = db := by
    refine ends_bind ?_
    by_cases h : db.HasType (.progress id) .hash
    · rw [hincrby, run_onHash h]
      split
      · exact Or.inr rfl
      · exact hdb.update _ _
      · exact hdb.update _ _
    · rw [hincrby, run_onHash_wrongType h]
      exact Or.inr rfl
  unfold recordCompletion
  rw [hdelta, hzero, hfailed, decide_eq_true (one_ne_zero : (1 : ℤ) ≠ 0)]
  refine ends_bind (hfirst.imp (fun _ db₁ hdb₁ => ?_) fun _ _ he => he)
  -- from here on there are types only
  refine Outcome.Ends.imp ((?_ : Steady id data Error.IsType _) db₁ hdb₁) (fun _ _ _ => trivial)
    fun _ _ he => Or.inl he
  refine .bind (.whenever hskip) fun _ => ?_
  refine .bind (.whenever fun _ => .hsetAll (fun _ h => h) progressUpdates_int) fun _ => ?_
  refine .bind (.whenever fun _ =>
    .hincrby (fun _ h => h) (Or.inl (by simp [callbackCounters])) _) fun _ => ?_
  refine .bind (.whenever fun _ => .of_leaves (OnlyTypes.srem _ _) (.srem Key.noConfusion _)
    (.srem Key.noConfusion _)) fun _ => ?_
  refine .bind (.whenever hskip) fun _ => ?_
  split
  · exact hrest _
  · intro db₂ hdb₂
    obtain ⟨s, hs⟩ := hsound.name
    rw [run_bind_ok (run_loadBatch hsound.decode hdb₂.batch), field, hs]
    exact hrest s db₂ hdb₂

/-- **Completing a member of the parent changes nothing if it fails.** -/
theorem batchComplete_success_error {total pending : ℕ} {jobID now : String}
    {e : Error} (hdb : Numbered id data db) (h : Tracked id total pending db)
    (hjobs : db.HasType (.jobs id) .set)
    (hrun : (batchComplete rt id jobID .success now).run db = .error e db') : db' = db := by
  have hends : ((batchComplete rt id jobID .success now).run db).Ends (fun _ _ => True)
      fun e db' => e.IsType ∨ db' = db := by
    have hchecks : ∀ c ∈ [("batch jobs", Key.jobs id), ("batch progress", Key.progress id)],
        db.HasType c.2 c.2.kind :=
      List.forall_mem_cons.mpr ⟨hjobs, List.forall_mem_cons.mpr ⟨h.typed, nofun⟩⟩
    unfold batchComplete
    rw [run_guarded hdb.batch hchecks, run_bind_ok (run_migrate_new h.hasType _)]
    unfold complete
    rw [run_bind_ok (run_hmget h.typed), run_bind_ok (run_scard hjobs)]
    generalize readProgress (db.members (.jobs id)).card (db.hash (.progress id)) = before
    dsimp only
    unfold refusal
    rw [if_neg Batch.Result.noConfusion, bind_bind, sismember,
      run_bind_ok (show _ = Outcome.ok (decide (jobID ∈ db.members (.jobs id))) db from
        run_onSet hjobs), run_pure_bind]
    split
    · trivial
    · unfold planResult
      rw [run_pure_bind]
      -- up to the writes the script only reads
      obtain ⟨plan, hplan⟩ | ⟨e, hplan⟩ := run_of_leaves (fun _ => planCompletion_leaves
        { Plan.init before with successesDelta := 1, pending := before.pending - 1 }) db
      · have hfollows := @planCompletion_follows rt id
          { Plan.init before with successesDelta := 1, pending := before.pending - 1 } db
        rw [hplan] at hfollows
        rw [run_bind_ok hplan]
        obtain ⟨queue, hqueue⟩ | ⟨e, hqueue⟩ :=
          run_of_leaves (fun _ => callbackTarget_leaves plan) db
        · rw [run_bind_ok hqueue, hfollows.addDeadBatch]
          exact ends_bind ((recordCompletion_success hsound hdb jobID now queue hfollows).imp
            (fun _ _ _ => trivial) fun _ _ he => he)
        · rw [run_bind, hqueue]
          exact Or.inr rfl
      · rw [run_bind, hplan]
        exact Or.inr rfl
  rw [hrun] at hends
  obtain htype | hsame := hends
  · refine batchComplete_type_error ?_ hrun htype
    rw [h.hasType]
    exact Option.some_ne_none _
  · exact hsame

end Complete

/-- How the completion of an empty batch may end, for a batch with this progress: if it is complete
now, keys that are not of this batch are as they were. -/
structure Confined (id : String) (h : String → Option Scalar) (db : Db Key)
    (reply : Option CompleteReply) (db' : Db Key) : Prop where
  parentID : ∀ r, reply = some (.recorded r) → r.parentID = stringValue (h "parent_id")
  dead : ∀ r, reply = some (.recorded r) → r.dead = boolValue (h "dead")
  invalidated : ∀ r, reply = some (.recorded r) → r.invalidated = boolValue (h "invalidated")
  quiet : (∀ r, reply = some (.recorded r) → r.completedNow = true) →
    ∀ k, k.Foreign id → db' k = db k

theorem Confined.refused {h : String → Option Scalar} {reply : CompleteReply}
    (hreply : ∀ r, reply ≠ .recorded r) : Confined id h db (some reply) db where
  parentID r hr := absurd (Option.some.inj hr) (hreply r)
  dead r hr := absurd (Option.some.inj hr) (hreply r)
  invalidated r hr := absurd (Option.some.inj hr) (hreply r)
  quiet _ _ _ := rfl

theorem batchComplete_empty_ends {h : String → Option Scalar}
    (hbatch : db (.batch id) = some (.string data)) (hprogress : db (.progress id) = some (.hash h))
    (hjobs : db.HasType (.jobs id) .set) (hpending : h "callbacks_pending" = some (.int 0))
    (jobID now : String) :
    ((batchComplete rt id jobID .emptySuccess now).run db).Ends (Confined id h db)
      fun e db' => e.IsType ∨ ∀ k, k.Foreign id → db' k = db k := by
  have htyped : db.HasType (.progress id) .hash := Or.inr (congrArg Db.typeOf hprogress)
  have hhash : db.hash (.progress id) = h := congrArg Db.hashOf hprogress
  have hchecks : ∀ c ∈ [("batch jobs", Key.jobs id), ("batch progress", Key.progress id)],
      db.HasType c.2 c.2.kind :=
    List.forall_mem_cons.mpr ⟨hjobs, List.forall_mem_cons.mpr ⟨htyped, nofun⟩⟩
  unfold batchComplete
  rw [run_guarded hbatch hchecks, run_bind_ok (run_migrate_new hprogress _)]
  unfold complete
  rw [run_bind_ok (run_hmget htyped), run_bind_ok (run_scard hjobs), hhash]
  generalize hbefore : readProgress (db.members (.jobs id)).card h = before
  have hcallbacks : before.callbacksPending = 0 := by
    rw [← hbefore, readProgress, hpending]
    rfl
  -- the writes, for any plan
  have hrecord (plan : Plan) (queue : String)
      (hfollows : (Plan.init before).Follows rt id db plan) :
      ((recordCompletion rt id jobID .emptySuccess now before plan queue >>= fun _ =>
        pure (some (.recorded (completeReply before plan)))).run db).Ends (Confined id h db)
        fun e db' => e.IsType ∨ ∀ k, k.Foreign id → db' k = db k := by
    refine ends_bind ((recordCompletion_discreet jobID .emptySuccess now before plan queue db).imp
      (fun _ db' hquiet => ⟨?_, ?_, ?_, fun hnow => hquiet ?_⟩) fun _ _ he => he)
    · rintro r heq
      cases heq
      rw [← hbefore]
      rfl
    · rintro r heq
      cases heq
      refine hfollows.dead.trans ?_
      rw [← hbefore]
      rfl
    · rintro r heq
      cases heq
      refine hfollows.invalidated.trans ?_
      rw [← hbefore]
      rfl
    · have hcompleted := hnow _ rfl
      simp only [completeReply, hcallbacks, decide_eq_true_eq] at hcompleted
      exact List.length_eq_zero_iff.mp (by omega)
  dsimp only
  unfold refusal
  rw [if_pos rfl]
  split
  · exact .refused fun _ => CompleteReply.noConfusion
  · split
    · exact .refused fun _ => CompleteReply.noConfusion
    · rw [run_pure_bind]
      dsimp only
      unfold planResult
      rw [run_pure_bind]
      -- up to the writes the script only reads, so an error there leaves everything as it was
      obtain ⟨plan, hplan⟩ | ⟨e, hplan⟩ :=
        run_of_leaves (fun _ => planCompletion_leaves (Plan.init before)) db
      · have hfollows := @planCompletion_follows rt id (Plan.init before) db
        rw [hplan] at hfollows
        rw [run_bind_ok hplan]
        obtain ⟨queue, hqueue⟩ | ⟨e, hqueue⟩ :=
          run_of_leaves (fun _ => callbackTarget_leaves plan) db
        · rw [run_bind_ok hqueue]
          split
          · obtain ⟨_, hdead⟩ | ⟨e, hdead⟩ :=
              run_of_leaves (fun _ => .expect "dead batches" Key.deadBatches .set) db
            · rw [run_bind_ok hdead]
              exact hrecord plan queue hfollows
            · rw [run_bind, hdead]
              exact Or.inr fun _ _ => rfl
          · exact hrecord plan queue hfollows
        · rw [run_bind, hqueue]
          exact Or.inr fun _ _ => rfl
      · rw [run_bind, hplan]
        exact Or.inr fun _ _ => rfl

/-- **Completing an empty batch** touches other keys only to push callback jobs, and then the batch
is not complete yet. -/
theorem run_batchComplete_empty {h : String → Option Scalar}
    (hbatch : db (.batch id) = some (.string data)) (hprogress : db (.progress id) = some (.hash h))
    (hjobs : db.HasType (.jobs id) .set) (hpending : h "callbacks_pending" = some (.int 0))
    (jobID now : String) :
    ((batchComplete rt id jobID .emptySuccess now).run db).Ends (Confined id h db)
      fun _ db' => ∀ k, k.Foreign id → db' k = db k := by
  have hends := @batchComplete_empty_ends rt id db data h hbatch hprogress hjobs hpending jobID now
  cases hrun : (batchComplete rt id jobID .emptySuccess now).run db with
  | ok reply db' =>
    rw [hrun] at hends
    exact hends
  | error e db' =>
    rw [hrun] at hends
    -- the pushes can fail for a type only, and those are checked before anything is written
    obtain htype | hsame := hends
    · have hpresent : db (.progress id) ≠ none := by
        rw [hprogress]
        exact Option.some_ne_none _
      rw [batchComplete_type_error hpresent hrun htype]
      exact fun _ _ => rfl
    · exact hsame

end Foreign

end BatchLua

end Senna
