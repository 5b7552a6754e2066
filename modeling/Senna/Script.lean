import Mathlib.Data.List.Infix
import Mathlib.Logic.Function.Basic
import Senna.System.Machine

/-!
# Running a script

`Script.Run` runs a Lua script by the SHA of its source if it knows one (`EVALSHA`), and otherwise
sends the source (`EVAL`) and then loads it, to know the SHA next time. A server may forget scripts
at any time, and `EVALSHA` of a script it does not know fails with a `NOSCRIPT` error. So one call
of `Run` makes up to three attempts: with the SHA it has read, with a SHA another goroutine has put
there meanwhile, and with the source. **Only one of them executes the script**, as long as `NOSCRIPT`
is never the error of the script itself.

The machine has any number of goroutines that call `Run` and `Load` on one script. A step is one
command, or one section under the mutex: reading the SHA under the read lock, taking the lock,
giving it back. Between any two steps the server's scripts and data may be changed by others
(`outside`). A command may get lost on its way to the server or on its way back (`Fate`).

What the server does with a source is a parameter (`Setting.exec`), and so is the digest of a
source. `executed` records the executions of a call, with the source that was run; no step depends
on it.
-/

namespace Senna

namespace Scripts

/-- How a script ends. -/
inductive Outcome (ρ : Type) where
  | reply (value : ρ)
  /-- The script returns nil or false. -/
  | nil
  | error (message : String)

def Outcome.result {ρ : Type} : Outcome ρ → Except String ρ
  | reply value => .ok value
  | nil => .error "redis: nil"
  | error message => .error message

def isNoScriptError (message : String) : Bool := "NOSCRIPT".toList <:+: message.toList

/-- The error of `EVALSHA` for a script that is not there. -/
def noScript : String := "NOSCRIPT No matching script. Please use EVAL."

theorem isNoScriptError_noScript : isNoScriptError noScript = true := by decide

/-- A script and what the server makes of it. Requests are the keys and arguments of a call. -/
structure Setting (σ α ρ : Type) where
  /-- `Source`. -/
  source : String
  digest : String → String
  /-- No other script has the digest of this one. -/
  digest_source : ∀ src, digest src = digest source → src = source
  /-- What running a source does. -/
  exec : String → α → σ → Outcome ρ × σ

/-- What becomes of a command. -/
inductive Fate where
  | answered
  /-- It does not reach the server. -/
  | lost (message : String)
  /-- It reaches the server, but the answer is lost. -/
  | unanswered (message : String)
  deriving DecidableEq, Repr

/-- How far a call of `Run` has come. -/
inductive Point (ρ : Type) where
  /-- Before the SHA is read. -/
  | start
  /-- Before `EvalSha`, with the SHA that was read. -/
  | cached (sha : String)
  /-- Before `s.mu.Lock()`. -/
  | lock (sha : String)
  /-- With the lock, before the SHA is looked at again. -/
  | refreshed (sha : String)
  /-- With the lock, before `Eval`. -/
  | eval
  /-- With the lock, before `ScriptLoad`. -/
  | load (value : ρ)
  /-- With the lock, before it is given back. -/
  | unlock (result : Except String ρ)
  | returned (result : Except String ρ)

/-- A call of `Run`. -/
structure Run (α ρ : Type) where
  request : α
  point : Point ρ
  /-- The executions so far: the source, and how it ended. -/
  executed : List (String × Outcome ρ)
  /-- Every command so far was answered. -/
  complete : Bool

/-- How far a call of `Load` has come. -/
inductive LoadPoint where
  /-- Before `s.mu.Lock()`. -/
  | lock
  /-- With the lock, before `ScriptLoad`. -/
  | load
  /-- With the lock, before it is given back. -/
  | unlock (err : Option String)
  | returned (err : Option String)

/-- A call of a goroutine. -/
inductive Call (α ρ : Type) where
  | run (r : Run α ρ)
  | load (p : LoadPoint)

/-- The server: the scripts it knows, and its data. -/
structure Server (σ : Type) where
  cache : List String
  data : σ

/-- A script of the client with the calls on it, and the server. -/
structure World (σ α ρ : Type) where
  /-- `sha`. -/
  sha : String
  /-- The call that holds the lock. -/
  holder : Option ℕ
  calls : ℕ → Option (Call α ρ)
  server : Server σ

/-- A step. -/
inductive Label (σ α : Type) where
  | callRun (i : ℕ) (request : α)
  | callLoad (i : ℕ)
  /-- The next step of a call; the fate is that of its command, if the step is one. -/
  | next (i : ℕ) (fate : Fate)
  /-- Others load and flush scripts and change data. -/
  | outside (server : Server σ)

/-- What a command of a call leads to. -/
structure Answer (σ ρ : Type) where
  /-- The result for the client. -/
  result : Except String ρ
  executed : List (String × Outcome ρ)
  server : Server σ
  answered : Bool

section Machine

variable {σ α ρ : Type} (S : Setting σ α ρ)

namespace Server

variable (server : Server σ)

/-- A command that would lead to `answer` meets its fate. -/
def send (answer : Answer σ ρ) : Fate → Answer σ ρ
  | .answered => answer
  | .lost message => ⟨.error message, [], server, false⟩
  | .unanswered message => { answer with result := .error message, answered := false }

def execute (src : String) (request : α) : Answer σ ρ :=
  let (out, data) := S.exec src request server.data
  ⟨out.result, [(src, out)], { server with data := data }, true⟩

def remember (src : String) : Server σ := { server with cache := src :: server.cache }

def evalSha (sha : String) (request : α) : Fate → Answer σ ρ :=
  server.send
    (match server.cache.find? fun src => S.digest src = sha with
    | none => ⟨.error noScript, [], server, true⟩
    | some src => server.execute S src request)

def eval (request : α) : Fate → Answer σ ρ :=
  server.send ((server.remember S.source).execute S S.source request)

def scriptLoad : Fate → Answer σ String :=
  server.send ⟨.ok (S.digest S.source), [], server.remember S.source, true⟩

@[simp] theorem answered_evalSha (sha : String) (request : α) :
    (server.evalSha S sha request .answered).answered = true := by
  simp only [evalSha, send]
  split <;> rfl

@[simp] theorem answered_eval (request : α) :
    (server.eval S request .answered).answered = true := rfl

@[simp] theorem answered_scriptLoad : (server.scriptLoad S .answered).answered = true := rfl

end Server

namespace Run

variable (r : Run α ρ)

def moveTo (point : Point ρ) : Run α ρ := { r with point := point }

def after (answer : Answer σ ρ) (point : Point ρ) : Run α ρ :=
  { r with
    point := point
    executed := r.executed ++ answer.executed
    complete := r.complete && answer.answered }

end Run

/-- Where a call goes on after `EvalSha`: it is done, unless the script was missing. -/
def afterEvalSha (done : Except String ρ → Point ρ) (missing : Point ρ) :
    Except String ρ → Point ρ
  | .ok value => done (.ok value)
  | .error message => if isNoScriptError message then missing else done (.error message)

theorem afterEvalSha_cases {P : Point ρ → Prop} {done : Except String ρ → Point ρ}
    {missing : Point ρ} (hdone : ∀ result, P (done result)) (hmissing : P missing)
    (result : Except String ρ) : P (afterEvalSha done missing result) := by
  cases result with
  | ok value => exact hdone _
  | error message =>
    simp only [afterEvalSha]
    split
    · exact hmissing
    · exact hdone _

/-- Where a call goes on after `Eval`: if the script has not failed, it is loaded. -/
def afterEval : Except String ρ → Point ρ
  | .ok value => .load value
  | .error message => .unlock (.error message)

theorem afterEval_cases {P : Point ρ → Prop} (hload : ∀ value, P (.load value))
    (hunlock : ∀ result, P (.unlock result)) (result : Except String ρ) :
    P (afterEval result) := by
  cases result with
  | ok value => exact hload value
  | error message => exact hunlock _

/-- The SHA after `ScriptLoad`: an error leaves it as it is. -/
def loadedSha (sha : String) : Except String String → String
  | .ok loadedSHA => loadedSHA
  | .error _ => sha

namespace World

variable (w : World σ α ρ)

/-- A call goes on, with the lock, the SHA and the server as the step leaves them. -/
def put (i : ℕ) (c : Call α ρ) (holder : Option ℕ) (sha : String) (server : Server σ) :
    World σ α ρ :=
  ⟨sha, holder, Function.update w.calls i (some c), server⟩

/-- The next step of a call of `Run`. -/
def nextRun (i : ℕ) (r : Run α ρ) (fate : Fate) : World σ α ρ :=
  match r.point with
  | .start =>
    let point : Point ρ := if w.sha ≠ "" then .cached w.sha else .lock w.sha
    w.put i (.run (r.moveTo point)) w.holder w.sha w.server
  | .cached sha =>
    let answer := w.server.evalSha S sha r.request fate
    let point := afterEvalSha .returned (.lock sha) answer.result
    w.put i (.run (r.after answer point)) w.holder w.sha answer.server
  | .lock sha => w.put i (.run (r.moveTo (.refreshed sha))) (some i) w.sha w.server
  | .refreshed sha =>
    if w.sha ≠ "" ∧ w.sha ≠ sha then
      let answer := w.server.evalSha S w.sha r.request fate
      let point := afterEvalSha .unlock .eval answer.result
      w.put i (.run (r.after answer point)) w.holder w.sha answer.server
    else w.put i (.run (r.moveTo .eval)) w.holder w.sha w.server
  | .eval =>
    let answer := w.server.eval S r.request fate
    w.put i (.run (r.after answer (afterEval answer.result))) w.holder w.sha answer.server
  | .load value =>
    let answer := w.server.scriptLoad S fate
    let r := { r with point := .unlock (.ok value), complete := r.complete && answer.answered }
    w.put i (.run r) w.holder (loadedSha w.sha answer.result) answer.server
  | .unlock result => w.put i (.run (r.moveTo (.returned result))) none w.sha w.server
  | .returned _ => w

/-- The next step of a call of `Load`. -/
def nextLoad (i : ℕ) (p : LoadPoint) (fate : Fate) : World σ α ρ :=
  match p with
  | .lock => w.put i (.load .load) (some i) w.sha w.server
  | .load =>
    let answer := w.server.scriptLoad S fate
    let err :=
      match answer.result with
      | .ok _ => none
      | .error message => some message
    w.put i (.load (.unlock err)) w.holder (loadedSha w.sha answer.result) answer.server
  | .unlock err => w.put i (.load (.returned err)) none w.sha w.server
  | .returned _ => w

def step : Label σ α → World σ α ρ
  | .callRun i request => w.put i (.run ⟨request, .start, [], true⟩) w.holder w.sha w.server
  | .callLoad i => w.put i (.load .lock) w.holder w.sha w.server
  | .next i fate =>
    match w.calls i with
    | some (.run r) => w.nextRun S i r fate
    | some (.load p) => w.nextLoad S i p fate
    | none => w
  | .outside server => { w with server := server }

end World

/-- A call can take its next step: it has not returned, and if it needs the lock, that is free. -/
def Call.Ready (free : Prop) : Call α ρ → Prop
  | .run r =>
    match r.point with
    | .start | .lock _ => free
    | .returned _ => False
    | _ => True
  | .load .lock => free
  | .load (.returned _) => False
  | .load _ => True

instance Call.decidableReady (free : Prop) [Decidable free] :
    ∀ c : Call α ρ, Decidable (c.Ready free)
  | .run ⟨_, .start, _, _⟩ | .run ⟨_, .lock _, _, _⟩ | .load .lock => ‹Decidable free›
  | .run ⟨_, .returned _, _, _⟩ | .load (.returned _) => .isFalse id
  | .run ⟨_, .cached _, _, _⟩ | .run ⟨_, .refreshed _, _, _⟩ | .run ⟨_, .eval, _, _⟩
  | .run ⟨_, .load _, _, _⟩ | .run ⟨_, .unlock _, _, _⟩ | .load .load
  | .load (.unlock _) => .isTrue trivial

namespace World

def Permits (w : World σ α ρ) : Label σ α → Prop
  | .callRun i _ | .callLoad i => w.calls i = none
  | .next i _ => ∃ c, w.calls i = some c ∧ c.Ready (w.holder = none)
  | .outside _ => True

instance decidablePermits (w : World σ α ρ) : ∀ e : Label σ α, Decidable (w.Permits e)
  | .callRun i _ | .callLoad i => inferInstanceAs (Decidable (w.calls i = none))
  | .next i _ => inferInstanceAs (Decidable (∃ c ∈ w.calls i, c.Ready (w.holder = none)))
  | .outside _ => .isTrue trivial

end World

def machine : Machine (World σ α ρ) (Label σ α) where
  permits := World.Permits
  step := World.step S

instance (w : World σ α ρ) (e : Label σ α) : Decidable ((machine S).permits w e) :=
  w.decidablePermits e

/-! ### What a call has executed -/

def Setting.Own (sha : String) : Prop := sha ≠ "" → ∀ src, S.digest src = sha → src = S.source

theorem Setting.own_digest : S.Own (S.digest S.source) := fun _ => S.digest_source

variable {sha : String}

theorem Setting.Own.loadedSha (h : S.Own sha) (server : Server σ) (fate : Fate) :
    S.Own (loadedSha sha (server.scriptLoad S fate).result) := by
  cases fate with
  | answered => exact S.own_digest
  | lost message => exact h
  | unanswered message => exact h

def Answer.Ran (answer : Answer σ ρ) : Prop :=
  answer.answered = true → ∃ out, answer.executed = [(S.source, out)] ∧ out.result = answer.result

def Answer.Tried (answer : Answer σ ρ) : Prop :=
  (answer.executed = [] ∧ answer.result = .error noScript) ∨ answer.Ran S

theorem Answer.ran_of_lost {answer : Answer σ ρ} (h : answer.answered = false) : answer.Ran S := by
  intro hanswered
  rw [h] at hanswered
  exact absurd hanswered (by decide)

theorem Server.evalSha_tried (server : Server σ) (request : α)
    (h : ∀ src, S.digest src = sha → src = S.source) (fate : Fate) :
    (server.evalSha S sha request fate).Tried S := by
  cases fate with
  | answered =>
    simp only [evalSha, send]
    cases hfind : server.cache.find? fun src => S.digest src = sha with
    | none => exact .inl ⟨rfl, rfl⟩
    | some src =>
      -- what is found by the digest is the script itself
      have hsrc : S.digest src = sha := by simpa using List.find?_some hfind
      obtain rfl := h src hsrc
      exact .inr fun _ => ⟨_, rfl, rfl⟩
  | lost message | unanswered message => exact .inr (Answer.ran_of_lost S rfl)

theorem Server.eval_ran (server : Server σ) (request : α) (fate : Fate) :
    (server.eval S request fate).Ran S := by
  cases fate with
  | answered => exact fun _ => ⟨_, rfl, rfl⟩
  | lost message | unanswered message => exact Answer.ran_of_lost S rfl

theorem Answer.Tried.ran {answer : Answer σ ρ} (h : answer.Tried S)
    (hresult : ∀ message, answer.result = .error message → isNoScriptError message = false) :
    answer.Ran S := by
  obtain ⟨-, herror⟩ | hran := h
  · have hfalse := hresult _ herror
    rw [isNoScriptError_noScript] at hfalse
    exact absurd hfalse (by decide)
  · exact hran

namespace Run

variable {S} {r : Run α ρ} {answer : Answer σ ρ} {point : Point ρ}

def Clean (r : Run α ρ) : Prop :=
  ∀ x ∈ r.executed, ∀ message, x.2.result = .error message → isNoScriptError message = false

def Idle (r : Run α ρ) : Prop := r.complete = true → r.Clean → r.executed = []

variable (S) in
def Ran (r : Run α ρ) (result : Except String ρ) : Prop :=
  r.complete = true → r.Clean → ∃ out, r.executed = [(S.source, out)] ∧ out.result = result

variable (S) in
def Fits (r : Run α ρ) : Prop :=
  match r.point with
  | .start | .lock _ | .refreshed _ | .eval => r.Idle
  | .cached sha => r.Idle ∧ ∀ src, S.digest src = sha → src = S.source
  | .load value => r.Ran S (.ok value)
  | .unlock result | .returned result => r.Ran S result

theorem before_after (hcomplete : (r.after answer point).complete = true)
    (hclean : (r.after answer point).Clean) :
    r.complete = true ∧ r.Clean ∧ answer.answered = true := by
  obtain ⟨hr, hanswered⟩ := Bool.and_eq_true_iff.mp hcomplete
  exact ⟨hr, fun x hx => hclean x (List.mem_append_left _ hx), hanswered⟩

theorem Idle.idle_after (h : r.Idle) (ha : answer.Tried S) {message : String}
    (hresult : answer.result = .error message) (hno : isNoScriptError message = true) :
    (r.after answer point).Idle := by
  intro hcomplete hclean
  obtain ⟨hr, hbefore, hanswered⟩ := before_after hcomplete hclean
  obtain ⟨hnone, -⟩ | hran := ha
  · show r.executed ++ answer.executed = []
    rw [h hr hbefore, hnone, List.nil_append]
  · -- the script itself would have failed with the error of a missing script
    obtain ⟨out, hone, hout⟩ := hran hanswered
    have hmem : (S.source, out) ∈ (r.after answer point).executed :=
      List.mem_append_right _ (hone ▸ List.mem_singleton_self _)
    have hfalse := hclean _ hmem message (hout.trans hresult)
    rw [hno] at hfalse
    exact absurd hfalse (by decide)

theorem Idle.ran_after (h : r.Idle) (ha : answer.Ran S) :
    (r.after answer point).Ran S answer.result := by
  intro hcomplete hclean
  obtain ⟨hr, hbefore, hanswered⟩ := before_after hcomplete hclean
  obtain ⟨out, hone, hout⟩ := ha hanswered
  refine ⟨out, ?_, hout⟩
  show r.executed ++ answer.executed = [(S.source, out)]
  rw [h hr hbefore, hone, List.nil_append]

theorem Idle.fits_afterEval (h : r.Idle) (ha : answer.Ran S) :
    (r.after answer (afterEval answer.result)).Fits S := by
  have hran : (r.after answer (afterEval answer.result)).Ran S answer.result := h.ran_after ha
  -- whether the script is loaded depends on its result
  cases hresult : answer.result with
  | ok value | error message => rwa [hresult] at hran

theorem Idle.fits_afterEvalSha {missing : Point ρ} {done : Except String ρ → Point ρ} (h : r.Idle)
    (ha : answer.Tried S)
    (hmissing : (r.after answer missing).Idle → (r.after answer missing).Fits S)
    (hdone : ∀ result, (r.after answer (done result)).Ran S result →
      (r.after answer (done result)).Fits S) :
    (r.after answer (afterEvalSha done missing answer.result)).Fits S := by
  by_cases hno : ∃ message, answer.result = .error message ∧ isNoScriptError message = true
  · obtain ⟨message, hresult, hno⟩ := hno
    rw [hresult]
    simp only [afterEvalSha, hno, if_true]
    exact hmissing (h.idle_after ha hresult hno)
  · have hfound : ∀ message, answer.result = .error message → isNoScriptError message = false := by
      intro message hresult
      exact Bool.eq_false_iff.mpr fun hm => hno ⟨message, hresult, hm⟩
    have hpoint : afterEvalSha done missing answer.result = done answer.result := by
      cases hresult : answer.result with
      | ok value => rfl
      | error message => simp [afterEvalSha, hfound message hresult]
    rw [hpoint]
    exact hdone _ (h.ran_after (ha.ran S hfound))

end Run

/-! ### Every reachable state -/

def Point.Holds : Point ρ → Prop
  | .refreshed _ | .eval | .load _ | .unlock _ => True
  | _ => False

namespace Call

def Holds : Call α ρ → Prop
  | .run r => r.point.Holds
  | .load .load | .load (.unlock _) => True
  | .load _ => False

def Fits : Call α ρ → Prop
  | .run r => r.Fits S
  | .load _ => True

end Call

/-- What holds in every reachable state. -/
structure World.Sound (w : World σ α ρ) : Prop where
  own : S.Own w.sha
  fits : ∀ i c, w.calls i = some c → c.Fits S
  /-- The lock is held by the call that has it. -/
  holder : ∀ i, w.holder = some i ↔ ∃ c, w.calls i = some c ∧ c.Holds

/-- Before any call, with any SHA of the script's own. -/
structure World.Start (w : World σ α ρ) : Prop where
  own : S.Own w.sha
  free : w.holder = none
  calls : ∀ i, w.calls i = none

namespace World

variable {S} {w : World σ α ρ}

theorem Start.sound (h : w.Start S) : w.Sound S where
  own := h.own
  fits := by
    intro i c hc
    rw [h.calls i] at hc
    cases hc
  holder := by
    intro i
    simp [h.free, h.calls i]

namespace Sound

variable {i : ℕ} {c : Call α ρ} (h : w.Sound S)

include h

theorem holder_iff (hc : w.calls i = some c) : w.holder = some i ↔ c.Holds := by
  rw [h.holder i]
  simp [hc]

theorem put {holder : Option ℕ} {server : Server σ} (hown : S.Own sha)
    (hfits : c.Fits S) (hholder : holder = some i ↔ c.Holds)
    (hothers : ∀ j, j ≠ i → (holder = some j ↔ w.holder = some j)) :
    (w.put i c holder sha server).Sound S where
  own := hown
  fits := by
    intro j d hd
    by_cases hj : j = i
    · subst hj
      obtain rfl : c = d := by simpa [World.put] using hd
      exact hfits
    · exact h.fits j d (by simpa [World.put, hj] using hd)
  holder := by
    intro j
    by_cases hj : j = i
    · subst hj
      simpa [World.put] using hholder
    · simpa [World.put, hj] using (hothers j hj).trans (h.holder j)

theorem put_same {d : Call α ρ} {server : Server σ} (hc : w.calls i = some d)
    (hown : S.Own sha) (hfits : c.Fits S) (hholds : d.Holds ↔ c.Holds) :
    (w.put i c w.holder sha server).Sound S :=
  h.put hown hfits ((h.holder_iff hc).trans hholds) fun _ _ => Iff.rfl

theorem put_lock {server : Server σ} (hfree : w.holder = none)
    (hown : S.Own sha) (hfits : c.Fits S) (hholds : c.Holds) :
    (w.put i c (some i) sha server).Sound S := by
  refine h.put hown hfits (by simp [hholds]) ?_
  intro j hj
  simp [hfree, hj.symm]

theorem put_unlock {d : Call α ρ} {server : Server σ} (hc : w.calls i = some d)
    (hd : d.Holds) (hown : S.Own sha) (hfits : c.Fits S) (hholds : ¬ c.Holds) :
    (w.put i c none sha server).Sound S := by
  have hheld : w.holder = some i := (h.holder_iff hc).mpr hd
  refine h.put hown hfits (by simp [hholds]) ?_
  intro j hj
  simp [hheld, hj.symm]

theorem nextRun {r : Run α ρ} {fate : Fate} (hc : w.calls i = some (.run r))
    (hready : (Call.run r).Ready (w.holder = none)) : (w.nextRun S i r fate).Sound S := by
  have hfits : r.Fits S := h.fits i _ hc
  obtain ⟨request, point, executed, complete⟩ := r
  cases point with
  | start =>
    simp only [World.nextRun]
    split
    · next hsha => exact h.put_same hc h.own ⟨hfits, h.own hsha⟩ Iff.rfl
    · exact h.put_same hc h.own hfits Iff.rfl
  | cached sha =>
    refine h.put_same hc h.own ?_ ?_
    · exact Run.Idle.fits_afterEvalSha hfits.1 (w.server.evalSha_tried S request hfits.2 fate) id
        fun _ => id
    · exact afterEvalSha_cases (P := fun p => False ↔ p.Holds) (fun _ => Iff.rfl) Iff.rfl _
  | lock sha => exact h.put_lock hready h.own hfits trivial
  | refreshed sha =>
    simp only [World.nextRun]
    split
    · next hsha =>
      refine h.put_same hc h.own ?_ ?_
      · exact Run.Idle.fits_afterEvalSha hfits (w.server.evalSha_tried S request (h.own hsha.1) fate)
          id fun _ => id
      · exact afterEvalSha_cases (P := fun p => True ↔ p.Holds) (fun _ => Iff.rfl) Iff.rfl _
    · exact h.put_same hc h.own hfits Iff.rfl
  | eval =>
    refine h.put_same hc h.own ?_ ?_
    · exact Run.Idle.fits_afterEval hfits (w.server.eval_ran S request fate)
    · exact afterEval_cases (P := fun p => True ↔ p.Holds) (fun _ => Iff.rfl) (fun _ => Iff.rfl) _
  | load value =>
    refine h.put_same hc (h.own.loadedSha S _ _) ?_ Iff.rfl
    exact fun hcomplete => hfits (Bool.and_eq_true_iff.mp hcomplete).1
  | unlock result => exact h.put_unlock hc trivial h.own hfits id
  | returned result => exact h

theorem nextLoad {p : LoadPoint} {fate : Fate} (hc : w.calls i = some (.load p))
    (hready : (Call.load p : Call α ρ).Ready (w.holder = none)) :
    (w.nextLoad S i p fate).Sound S := by
  cases p with
  | lock => exact h.put_lock hready h.own trivial trivial
  | load => exact h.put_same hc (h.own.loadedSha S _ _) trivial Iff.rfl
  | unlock err => exact h.put_unlock hc trivial h.own trivial id
  | returned err => exact h

theorem put_new {server : Server σ} (hnew : w.calls i = none) (hown : S.Own sha)
    (hfits : c.Fits S) (hholds : ¬ c.Holds) : (w.put i c w.holder sha server).Sound S := by
  have hnot : w.holder ≠ some i := by
    intro hi
    obtain ⟨d, hd, -⟩ := (h.holder i).mp hi
    rw [hnew] at hd
    cases hd
  exact h.put hown hfits (by simp [hnot, hholds]) fun _ _ => Iff.rfl

theorem step {e : Label σ α} (hp : w.Permits e) : (w.step S e).Sound S := by
  cases e with
  | callRun i request => exact h.put_new hp h.own (fun _ _ => rfl) id
  | callLoad i => exact h.put_new hp h.own trivial id
  | next i fate =>
    obtain ⟨c, hc, hready⟩ := hp
    cases c with
    | run r => simpa [World.step, hc] using h.nextRun hc hready
    | load p => simpa [World.step, hc] using h.nextLoad hc hready
  | outside server => exact ⟨h.own, h.fits, h.holder⟩

end Sound

end World

/-! ### Every call can return -/

/-- How many steps a call of `Run` takes from here at most. -/
def Point.left : Point ρ → ℕ
  | .start => 7
  | .cached _ => 6
  | .lock _ => 5
  | .refreshed _ => 4
  | .eval => 3
  | .load _ => 2
  | .unlock _ => 1
  | .returned _ => 0

theorem Point.left_le (p : Point ρ) : p.left ≤ 7 := by
  cases p <;> simp [left]

namespace Call

def left : Call α ρ → ℕ
  | .run r => r.point.left
  | .load .lock => 3
  | .load .load => 2
  | .load (.unlock _) => 1
  | .load (.returned _) => 0

/-- What stays the same over answered steps: the request, and whether every command was answered. -/
def origin : Call α ρ → Option (α × Bool)
  | .run r => some (r.request, r.complete)
  | .load _ => none

def Returned : Call α ρ → Prop
  | .run r => ∃ result, r.point = .returned result
  | .load p => ∃ err, p = .returned err

theorem ready_of_holds {c : Call α ρ} {free : Prop} (h : c.Holds) : c.Ready free := by
  cases c with
  | run r =>
    obtain ⟨request, point, executed, complete⟩ := r
    cases point <;> first | exact trivial | exact h.elim
  | load p => cases p <;> first | exact trivial | exact h.elim

theorem returned_or_ready (c : Call α ρ) : c.Returned ∨ ∀ free : Prop, free → c.Ready free := by
  cases c with
  | run r =>
    obtain ⟨request, point, executed, complete⟩ := r
    cases point <;>
      first | exact .inl ⟨_, rfl⟩ | exact .inr fun _ _ => trivial | exact .inr fun _ => id
  | load p =>
    cases p <;> first | exact .inl ⟨_, rfl⟩ | exact .inr fun _ _ => trivial | exact .inr fun _ => id

end Call

namespace World

variable {S} {w : World σ α ρ} {i : ℕ} {c : Call α ρ}

theorem step_next (hc : w.calls i = some c) (hready : c.Ready (w.holder = none)) (fate : Fate) :
    ∃ d holder sha server, w.step S (.next i fate) = w.put i d holder sha server ∧
      d.left < c.left ∧ (fate = .answered → d.origin = c.origin) ∧
      (w.holder = some i → holder = some i ∨ holder = none ∧ d.Returned) := by
  simp only [World.step, hc]
  -- each point of `Run` and `Load` leads to a later one; only the last unlocks
  cases c with
  | run r =>
    obtain ⟨request, point, executed, complete⟩ := r
    cases point with
    | start =>
      refine ⟨_, _, _, _, rfl, ?_, fun _ => rfl, .inl⟩
      show (if w.sha ≠ "" then Point.cached w.sha else .lock w.sha : Point ρ).left < 7
      split <;> simp [Point.left]
    | cached sha =>
      refine ⟨_, _, _, _, rfl, ?_, ?_, .inl⟩
      · refine afterEvalSha_cases (P := fun p => p.left < 6) ?_ ?_ _
        · exact fun result => Nat.succ_pos 5
        · exact Nat.lt_succ_self 5
      · rintro rfl
        simp [Call.origin, Run.after]
    | lock sha => exact ⟨_, _, _, _, rfl, Nat.lt_succ_self 4, fun _ => rfl, fun _ => .inl rfl⟩
    | refreshed sha =>
      simp only [nextRun]
      split
      · refine ⟨_, _, _, _, rfl, ?_, ?_, .inl⟩
        · refine afterEvalSha_cases (P := fun p => p.left < 4) ?_ ?_ _
          · exact fun result => Nat.one_lt_succ_succ 2
          · exact Nat.lt_succ_self 3
        · rintro rfl
          simp [Call.origin, Run.after]
      · exact ⟨_, _, _, _, rfl, Nat.lt_succ_self 3, fun _ => rfl, .inl⟩
    | eval =>
      refine ⟨_, _, _, _, rfl, ?_, ?_, .inl⟩
      · refine afterEval_cases (P := fun p => p.left < 3) ?_ ?_ _
        · exact fun value => Nat.lt_succ_self 2
        · exact fun result => Nat.one_lt_succ_succ 1
      · rintro rfl
        simp [Call.origin, Run.after]
    | load value =>
      refine ⟨_, _, _, _, rfl, Nat.lt_succ_self 1, ?_, .inl⟩
      rintro rfl
      simp [Call.origin]
    | unlock result =>
      exact ⟨_, _, _, _, rfl, Nat.zero_lt_one, fun _ => rfl, fun _ => .inr ⟨rfl, _, rfl⟩⟩
    | returned result => exact hready.elim
  | load p =>
    cases p with
    | lock => exact ⟨_, _, _, _, rfl, Nat.lt_succ_self 2, fun _ => rfl, fun _ => .inl rfl⟩
    | load => exact ⟨_, _, _, _, rfl, Nat.lt_succ_self 1, fun _ => rfl, .inl⟩
    | unlock err =>
      exact ⟨_, _, _, _, rfl, Nat.zero_lt_one, fun _ => rfl, fun _ => .inr ⟨rfl, _, rfl⟩⟩
    | returned err => exact hready.elim

theorem reaches_next {P : World σ α ρ → Prop} (hc : w.calls i = some c)
    (hready : c.Ready (w.holder = none))
    (h : (machine S).Reaches (w.step S (.next i .answered)) P) : (machine S).Reaches w P :=
  @Machine.Reaches.step _ _ (machine S) w P (.next i .answered) ⟨c, hc, hready⟩ h

@[simp] theorem calls_put_self (holder : Option ℕ) (sha : String) (server : Server σ) :
    (w.put i c holder sha server).calls i = some c := by
  simp [put]

theorem calls_put_of_ne {j : ℕ} (hj : j ≠ i) (holder : Option ℕ) (sha : String)
    (server : Server σ) : (w.put i c holder sha server).calls j = w.calls j := by
  simp [put, hj]

/-- **The lock comes free.** The call that holds it can go on until it returns; the others stay
where they are. -/
theorem Sound.release (h : w.Sound S) (hc : w.calls i = some c) (hheld : w.holder = some i) :
    (machine S).Reaches w fun w' => w'.Sound S ∧ w'.holder = none ∧
      ∀ j, j ≠ i → w'.calls j = w.calls j := by
  -- induction on what the call still has to do
  induction hn : c.left using Nat.strong_induction_on generalizing w c with
  | _ n ih =>
    have hready : c.Ready (w.holder = none) := Call.ready_of_holds ((h.holder_iff hc).mp hheld)
    have hsound := h.step (e := .next i .answered) ⟨c, hc, hready⟩
    obtain ⟨d, holder, sha, server, hstep, hleft, -, hholder⟩ :=
      step_next (S := S) hc hready .answered
    refine reaches_next hc hready ?_
    rw [hstep] at hsound ⊢
    obtain rfl | ⟨rfl, -⟩ := hholder hheld
    · refine (ih _ (hn ▸ hleft) hsound (calls_put_self _ _ _) rfl rfl).trans ?_
      rintro w' ⟨hsound', hfree, hothers⟩
      exact .here ⟨hsound', hfree, fun j hj => (hothers j hj).trans (calls_put_of_ne hj _ _ _)⟩
    · exact .here ⟨hsound, rfl, fun j hj => calls_put_of_ne hj _ _ _⟩

theorem Sound.wait (h : w.Sound S) (hc : w.calls i = some c)
    (hready : ∀ free : Prop, free → c.Ready free) :
    (machine S).Reaches w fun w' => w'.Sound S ∧ w'.calls i = some c ∧
      c.Ready (w'.holder = none) := by
  cases hheld : w.holder with
  | none => exact .here ⟨h, hc, hready _ hheld⟩
  | some j =>
    by_cases hj : i = j
    · subst hj
      exact .here ⟨h, hc, Call.ready_of_holds ((h.holder_iff hc).mp hheld)⟩
    · obtain ⟨d, hd, -⟩ := (h.holder j).mp hheld
      refine (h.release hd hheld).trans ?_
      rintro w' ⟨hsound, hfree, hothers⟩
      exact .here ⟨hsound, (hothers i hj).trans hc, hready _ hfree⟩

/-- **Every call can return**, from wherever it is and whatever the others are doing. -/
theorem Sound.ends (h : w.Sound S) (hc : w.calls i = some c) :
    (machine S).Reaches w fun w' =>
      ∃ d, w'.calls i = some d ∧ d.Returned ∧ d.origin = c.origin := by
  induction hn : c.left using Nat.strong_induction_on generalizing w c with
  | _ n ih =>
    obtain hreturned | hfree := c.returned_or_ready
    · exact .here ⟨c, hc, hreturned, rfl⟩
    · refine (h.wait hc hfree).trans ?_
      rintro w' ⟨hsound, hc', hready⟩
      have hnext := hsound.step (e := .next i .answered) ⟨c, hc', hready⟩
      obtain ⟨d, holder, sha, server, hstep, hleft, horigin, -⟩ :=
        step_next (S := S) hc' hready .answered
      refine reaches_next hc' hready ?_
      rw [hstep] at hnext ⊢
      refine (ih _ (hn ▸ hleft) hnext (calls_put_self _ _ _) rfl).trans ?_
      rintro w'' ⟨d', hd', hreturned, horigin'⟩
      exact .here ⟨d', hd', hreturned, horigin'.trans (horigin rfl)⟩

theorem calls_step_of_ne {e : Label σ α} (hp : w.Permits e) (hc : w.calls i = some c)
    (hne : ∀ fate, e ≠ .next i fate) : (w.step S e).calls i = some c := by
  cases e with
  | callRun j request | callLoad j =>
    have hj : i ≠ j := by
      rintro rfl
      exact Option.some_ne_none c (hc.symm.trans hp)
    exact (calls_put_of_ne hj _ _ _).trans hc
  | next j fate =>
    have hj : i ≠ j := by
      rintro rfl
      exact hne fate rfl
    obtain ⟨d, hd, hready⟩ := hp
    obtain ⟨d', holder, sha, server, hstep, -⟩ := step_next (S := S) hd hready fate
    rw [hstep]
    exact (calls_put_of_ne hj _ _ _).trans hc
  | outside server => exact hc

end World

def Label.isNext (i : ℕ) : Label σ α → Bool
  | .next j _ => i = j
  | _ => false

variable {S}

theorem countP_isNext_le {w : World σ α ρ} {es : List (Label σ α)} {i : ℕ} {c : Call α ρ}
    (legal : (machine S).Legal w es) (hc : w.calls i = some c) :
    es.countP (Label.isNext i) ≤ c.left := by
  induction es generalizing w c with
  | nil => exact Nat.zero_le _
  | cons e es ih =>
    by_cases he : ∃ fate, e = .next i fate
    · obtain ⟨fate, rfl⟩ := he
      obtain ⟨⟨d, hd, hready⟩, hrest⟩ := legal
      obtain rfl : c = d := Option.some.inj (hc.symm.trans hd)
      obtain ⟨d, holder, sha, server, hstep, hleft, -⟩ := World.step_next (S := S) hc hready fate
      have hcall : (w.step S (.next i fate)).calls i = some d := by
        rw [hstep]
        exact World.calls_put_self _ _ _
      have hcount := ih hrest hcall
      rw [List.countP_cons_of_pos (by simp [Label.isNext])]
      omega
    · have hne : ∀ fate, e ≠ .next i fate := fun fate h => he ⟨fate, h⟩
      rw [List.countP_cons_of_neg]
      · exact ih legal.2 (World.calls_step_of_ne legal.1 hc hne)
      · cases e with
        | next j fate =>
          have hj : i ≠ j := by
            rintro rfl
            exact hne fate rfl
          simp [Label.isNext, hj]
        | callRun j request | callLoad j | outside server => simp [Label.isNext]

/-- **A script is executed once.** Any number of goroutines call `Run` and `Load`, with any SHA of
the script in the field, while others load and flush scripts. A call of `Run` that has returned, all
of whose commands were answered, has executed the source of the script exactly once and returns the
result of that execution, be it a value or an error, unless the script itself fails with a
`NOSCRIPT` error. And a call does return: it takes seven steps at most, and it never gets stuck. -/
theorem run_executes_once {w : World σ α ρ} (hstart : w.Start S) {es : List (Label σ α)}
    (legal : (machine S).Legal w es) {i : ℕ} {r : Run α ρ}
    (hc : ((machine S).run w es).calls i = some (.run r)) :
    (∀ result, r.point = .returned result → r.complete = true → r.Clean →
      ∃ out, r.executed = [(S.source, out)] ∧ out.result = result) ∧
    ((machine S).Reaches ((machine S).run w es) fun w' => ∃ r' result,
      w'.calls i = some (.run r') ∧ r'.point = .returned result ∧ r'.request = r.request ∧
      r'.complete = r.complete) ∧
    ∀ fs, (machine S).Legal ((machine S).run w es) fs → fs.countP (Label.isNext i) ≤ 7 := by
  have hsound : ((machine S).run w es).Sound S :=
    legal.invariant (fun _ _ h hp => h.step hp) hstart.sound
  refine ⟨?_, ?_, ?_⟩
  · intro result hresult
    have hfits : r.Fits S := hsound.fits i _ hc
    simp only [Run.Fits, hresult] at hfits
    exact hfits
  · refine (hsound.ends hc).trans ?_
    rintro w' ⟨d, hd, hreturned, horigin⟩
    cases d with
    | run r' =>
      obtain ⟨result, hresult⟩ := hreturned
      obtain ⟨hrequest, hcomplete⟩ : r'.request = r.request ∧ r'.complete = r.complete := by
        simpa [Call.origin] using horigin
      exact .here ⟨r', result, hd, hresult, hrequest, hcomplete⟩
    | load p => cases horigin
  · intro fs hfs
    exact (countP_isNext_le hfs hc).trans r.point.left_le

end Machine

def counter : Setting ℕ Unit ℕ where
  source := "return redis.call('INCR', KEYS[1])"
  digest := id
  digest_source := fun _ h => h
  exec := fun _ _ n => (.reply (n + 1), n + 1)

def flushed : World ℕ Unit ℕ := ⟨counter.source, none, fun _ => none, ⟨[], 41⟩⟩

/-- Two calls read the SHA and are told `NOSCRIPT`. The first one sends the source; the scripts are
flushed again, and the second one sends the source, too. -/
def flushedRun : List (Label ℕ Unit) :=
  [.callRun 0 (), .callRun 1 (), .next 0 .answered, .next 1 .answered, .next 0 .answered,
    .next 1 .answered, .next 0 .answered, .next 0 .answered, .next 0 .answered,
    .next 0 .answered, .next 0 .answered, .outside ⟨[], 42⟩, .next 1 .answered,
    .next 1 .answered, .next 1 .answered, .next 1 .answered, .next 1 .answered]

theorem run_executes_once_flushed :
    (machine counter).Legal flushed flushedRun ∧
      ∃ r : Run Unit ℕ, ((machine counter).run flushed flushedRun).calls 1 = some (.run r) ∧
        r.point = .returned (.ok 43) ∧
        ∃ out, r.executed = [(counter.source, out)] ∧ out.result = .ok 43 := by
  have legal : (machine counter).Legal flushed flushedRun := by decide +kernel
  have hstart : flushed.Start counter := ⟨fun _ _ h => h, rfl, fun _ => rfl⟩
  let r : Run Unit ℕ := ⟨(), .returned (.ok 43), [(counter.source, .reply 43)], true⟩
  have hc : ((machine counter).run flushed flushedRun).calls 1 = some (.run r) := rfl
  refine ⟨legal, r, hc, rfl, (run_executes_once hstart legal hc).1 _ rfl rfl ?_⟩
  simp [Run.Clean, r, Outcome.result]

end Scripts

end Senna
