import Senna.Worker.Script

/-!
# The two fetch scripts

A worker fetches from an ordinary queue with `fetch_job.lua` and from a sequential one with
`sequential_fetch.lua`. The first pops a payload, decides what to hold of it and pushes that in
flight. The second moves the payload in flight, decides, and then patches the entry where it finds
an equal payload from the head on, which is the one it has just moved. Both decide in the same way.

So for a caller who gets the lock, **the scripts differ in the lock, and in what a runtime error
leaves behind**. The decision may end in one: a payload with a marker that is not trusted is encoded
again without it, and `cjson` reads numbers that it refuses to write. At that point the first script
has the payload in a variable, where it is lost, and the second has it in flight.
-/

namespace Senna

open Redis

namespace FetchScripts

def result {α : Type} : Outcome Key α → Except Error α
  | .ok a _ => .ok a
  | .error e _ => .error e

/-- Two runs end with the same reply, and with the same at every key but one. -/
structure Agree {α : Type} (lock : Key) (x y : Outcome Key α) : Prop where
  result : result x = result y
  keys : ∀ k, k ≠ lock → x.db k = y.db k

def Encodes (cj : Cjson) (db : Db Key) (queue : String) : Prop :=
  ∀ payload, (db.list (.queue queue)).getLast? = some payload →
    held cj (trustedIn db) payload ≠ none

variable {cj : Cjson} {db : Db Key} {queue workerID : String}

theorem not_locked (hlock : db (.sequentialLock queue) = none ∨
    db (.sequentialLock queue) = some (.string workerID)) :
    ¬ (db.str (.sequentialLock queue) ≠ none ∧
      db.str (.sequentialLock queue) ≠ some workerID) := by
  rintro ⟨hsome, hother⟩
  unfold Db.str at hsome hother
  obtain hnone | hmine := hlock
  · exact hsome (by rw [hnone]; rfl)
  · exact hother (by rw [hmine]; rfl)

/-- **Both fetch scripts do the same thing, exactly if they do not raise an error.** For every queue
and in-flight list, every other content of the keyspace and a lock that is free or the caller's. -/
theorem fetch_scripts_agree_iff (cj : Cjson) (db : Db Key) (queue workerID : String)
    (hqueue : db.HasType (.queue queue) .list) (hinFlight : db.HasType (.inFlight workerID) .list)
    (hlock : db (.sequentialLock queue) = none ∨
      db (.sequentialLock queue) = some (.string workerID)) :
    Agree (.sequentialLock queue) ((fetchJob cj queue workerID).run db)
      ((sequentialFetch cj queue workerID).run db) ↔ Encodes cj db queue := by
  have hstring : db.HasType (.sequentialLock queue) .string := by
    obtain hnone | hmine := hlock
    · exact Or.inl (by rw [hnone]; rfl)
    · exact Or.inr (by rw [hmine]; rfl)
  unfold Encodes
  rw [run_fetchJob hqueue hinFlight,
    run_sequentialFetch hqueue hinFlight hstring, if_neg (not_locked hlock)]
  cases (db.list (.queue queue)).getLast? with
  | none => exact iff_of_true ⟨rfl, fun _ _ => rfl⟩ (by simp)
  | some payload =>
    simp only [Option.some.injEq, forall_eq']
    cases held cj (trustedIn db) payload with
    | none =>
      -- the payload is in flight after the one, and nowhere after the other
      refine iff_of_false (fun hagree => ?_) (absurd rfl)
      have hlists : (db.putList (.queue queue) (db.list (.queue queue)).dropLast).list
          (.inFlight workerID) =
            ((db.putList (.queue queue) (db.list (.queue queue)).dropLast).putList
              (.inFlight workerID) (payload :: db.list (.inFlight workerID))).list
                (.inFlight workerID) :=
        congrArg Db.listOf (hagree.keys (.inFlight workerID) Key.noConfusion)
      rw [Db.list_write, Db.list_write, if_neg Key.noConfusion, if_pos rfl,
        Db.listOf_ofList] at hlists
      exact List.cons_ne_self _ _ hlists.symm
    | some s =>
      refine iff_of_true ⟨rfl, fun k hk => ?_⟩ (Option.some_ne_none s)
      simp only [Outcome.db]
      exact ((Db.write_apply _ _ _ _).trans (if_neg hk)).symm

def markedPayload : String := "\x7b\"finalization\":1,\"jid\":\"j\"\x7d"

def hugePayload : String := "\x7b\"finalization\":1,\"n\":1e999\x7d"

def waiting (payload : String) : Db Key := fun k =>
  if k = .queue "q" then some (.list [payload]) else none

theorem marker_removed_by_both :
    held Cjson.plain (trustedIn (waiting markedPayload)) markedPayload =
        some "\x7b\"jid\":\"j\"\x7d" ∧
      Agree (.sequentialLock "q") ((fetchJob Cjson.plain "q" "w").run (waiting markedPayload))
        ((sequentialFetch Cjson.plain "q" "w").run (waiting markedPayload)) := by
  have hheld : held Cjson.plain (trustedIn (waiting markedPayload)) markedPayload =
      some "\x7b\"jid\":\"j\"\x7d" := by decide +kernel
  refine ⟨hheld, (fetch_scripts_agree_iff Cjson.plain (waiting markedPayload) "q" "w" (Or.inr rfl)
    (Or.inl rfl) (Or.inl rfl)).mpr fun payload hlast => ?_⟩
  obtain rfl : markedPayload = payload := Option.some.inj hlast
  rw [hheld]
  exact nofun

/-- **A payload that cannot be encoded again is lost by one script and kept by the other.** Both
stop with the same error. -/
theorem huge_number_lost_or_kept :
    let fetched := (fetchJob Cjson.plain "q" "w").run (waiting hugePayload)
    let moved := (sequentialFetch Cjson.plain "q" "w").run (waiting hugePayload)
    result fetched = .error (.raised "Cannot serialise") ∧
      result moved = .error (.raised "Cannot serialise") ∧
      fetched.db (.queue "q") = none ∧ fetched.db (.inFlight "w") = none ∧
      moved.db (.queue "q") = none ∧ moved.db.list (.inFlight "w") = [hugePayload] := by
  have hheld : held Cjson.plain (trustedIn (waiting hugePayload)) hugePayload = none := by
    decide +kernel
  have hlast : ((waiting hugePayload).list (.queue "q")).getLast? = some hugePayload := rfl
  have hfetched := @run_fetchJob Cjson.plain (waiting hugePayload) "q" "w" (Or.inr rfl)
    (Or.inl rfl)
  have hmoved := @run_sequentialFetch Cjson.plain (waiting hugePayload) "q" "w" (Or.inr rfl)
    (Or.inl rfl) (Or.inl rfl)
  simp only [hlast, hheld] at hfetched hmoved
  rw [if_neg (not_locked (Or.inl rfl))] at hmoved
  rw [hfetched, hmoved]
  exact ⟨rfl, rfl, rfl, rfl, rfl, rfl⟩

end FetchScripts

end Senna
