import Mathlib.Tactic
import ScrapyExtension.Machine.Basic
import ScrapyExtension.Machine.Threads

/-!
# One connection manager

A manager publishes one backend. Connecting, health probes and teardown of a replaced backend run
outside the state lock `_lock`; connects are serialized by `_connect_lock`, which is given up while a
stale backend is disconnected. The final release retires the manager, and `_finalize_retirement`
disconnects what is still published.

## Locks

A section under `_lock` is one step, with one exception. The flag `_retired` is set under the registry
lock, so the publication is two steps, the check of the flag and the assignment, and `_lock` is held
between them. Other sections read the flag once and first, so that nothing can come in between.

Callbacks that re-enter the manager are calls like any other: a backend's `disconnect` is called with
no lock held. A `connect` from below `_connect_lock` waits for ever.

## Where a backend is

A backend whose `connect` succeeded is in the hands of a call, published, or disconnected once. The
invariant counts these places.
-/

namespace ScrapyExtension

namespace ConnectionLifecycle

/-- Where a call is. -/
inductive Stage
  /-- `backend`, before its section -/
  | accessing
  /-- Waiting for the lazy attempt of another call. -/
  | awaiting (attempt : ℕ)
  /-- `_run_connect_transaction`, before `_connect_lock` -/
  | queued
  /-- `_detach_stale_backend`, first section -/
  | detaching
  /-- The health probe is out. -/
  | probing (backend generation : ℕ)
  /-- `_connect_with_retries`, before the attempts -/
  | checking
  /-- `_attempt_connection`, first section -/
  | attempting (attempt : ℕ)
  /-- The backend's `connect` is out. -/
  | connecting (attempt : ℕ)
  /-- The backend's `connect` has succeeded. -/
  | connected (attempt handle : ℕ)
  /-- Under `_lock`, the flag was read. -/
  | publishing (handle : ℕ)
  /-- Released in the meantime. -/
  | discarding (attempt handle : ℕ)
  | failed (attempt : ℕ)
  /-- The stale backend is to be disconnected, without any lock. -/
  | stale (handle : ℕ)
  | rechecking
  /-- `_complete_lazy_connection_attempt` -/
  | completing (error : Bool)
  /-- The last section of `backend` -/
  | reading
  /-- `_finalize_retirement`, before its section -/
  | entering
  /-- Waiting for another finalizer. -/
  | waiting
  /-- Owner of the finalization, with the backend that it has to disconnect. -/
  | tearing (handle : Option ℕ)
  /-- `_publish_retirement_complete` -/
  | finishing
  | returned (handle : Option ℕ)
  | raised
deriving DecidableEq

namespace Stage

/-- The call has `_connect_lock`. -/
def holds : Stage → Bool
  | detaching | probing .. | checking | attempting _ | connecting _ | connected .. | publishing _
  | discarding .. | failed _ => true
  | _ => false

/-- The call has seen that nothing is published. -/
def clear : Stage → Bool
  | attempting _ | connecting _ | connected .. | publishing _ | discarding .. | failed _ => true
  | _ => false

def publishes : Stage → Bool
  | publishing _ => true
  | _ => false

/-- The call waits for a finalizer. -/
def waits : Stage → Bool
  | waiting => true
  | _ => false

/-- The call has this backend in its hands. -/
def carries (h : ℕ) : Stage → Bool
  | connected _ h' | publishing h' | discarding _ h' | stale h' => h' = h
  | tearing h' => h' = some h
  | _ => false

/-- A finalizer with a live frame. -/
def finalizes : Stage → Bool
  | tearing _ | finishing => true
  | _ => false

/-- The call is over. -/
def ended : Stage → Bool
  | returned _ | raised => true
  | _ => false

end Stage

/-- A call of `connect`, `backend` or a release. -/
structure Call where
  thread : ℕ
  /-- The lazy attempt of this call, if it owns one. -/
  lazy : Option ℕ
  stage : Stage
deriving DecidableEq

/-- A manager, with what became of its backends. -/
structure State where
  /-- `_backend` -/
  backend : Option ℕ
  /-- `_connection_generation` -/
  generation : ℕ
  /-- `_retired` -/
  retired : Bool
  /-- How often each backend whose `connect` succeeded was disconnected. -/
  handles : List ℕ
  /-- Owner of `_connect_lock`. -/
  connectLock : Option ℕ
  /-- Owner of `_lock`, between two steps. -/
  stateLock : Option ℕ
  /-- `_connecting` -/
  connecting : Bool
  /-- All lazy attempts, with their error once it is published. -/
  attempts : List (Option Bool)
  /-- `_retiring_backend` -/
  retiringBackend : Option ℕ
  /-- `_retirement_disconnect_started` -/
  disconnectStarted : Bool
  /-- `_retirement_finalizing` -/
  finalizing : Bool
  /-- `_retirement_finalizer_token`, as the call that made it -/
  finalizer : Option ℕ
  /-- `_retirement_complete` -/
  complete : Bool
  calls : List Call
deriving DecidableEq

/-- How a backend's `connect` ends. -/
inductive Outcome
  | succeeded
  | failed
  /-- `ConfigurationError` and the like, and control flow: no retry. -/
  | fatal
deriving DecidableEq

/-- What the environment contributes to a step of a call. -/
inductive Event
  | next
  /-- The probe answers; `none` is control flow. -/
  | probed (healthy : Option Bool)
  | driver (outcome : Outcome)
  /-- There is time left for another attempt. -/
  | retry (again : Bool)
  /-- Control flow comes out of a teardown or a publication. -/
  | interrupted
deriving DecidableEq

/-- What can happen. -/
inductive Label
  /-- `connect` is called. -/
  | connect (thread : ℕ)
  /-- `backend` is read, and there is no backend to be seen without the lock. -/
  | access (thread : ℕ)
  /-- A release sets `_retired`, under the registry lock, and goes on to `_finalize_retirement`. -/
  | retire (thread : ℕ)
  /-- A call goes on. -/
  | act (n : ℕ) (event : Event)
deriving DecidableEq

namespace State

/-- Before anything. -/
def new : State := ⟨none, 0, false, [], none, none, false, [], none, false, false, none, false, []⟩

/-- A call goes to another stage. -/
def goto (s : State) (n : ℕ) (c : Call) (stage : Stage) : State :=
  { s with calls := s.calls.set n { c with stage } }

/-- A connect is over; the owner of a lazy attempt has to publish it. -/
def conclude (s : State) (n : ℕ) (c : Call) (error : Bool) : State :=
  s.goto n c <|
    if c.lazy.isSome then .completing error else if error then .raised else .returned none

/-- `_connect_lock` is given up. -/
def unlock (s : State) : State := { s with connectLock := none }

/-- The `disconnect` of a backend. -/
def disconnect (s : State) (h : ℕ) : State := { s with handles := s.handles.modify h (· + 1) }

/-- The slow path of `backend` -/
def access (s : State) (n : ℕ) (c : Call) : State :=
  if s.retired then s.goto n c .raised
  else
    match s.backend with
    | some h => s.goto n c (.returned (some h))
    | none =>
      if s.connecting then s.goto n c (.awaiting (s.attempts.length - 1))
      else
        { s.goto n { c with lazy := some s.attempts.length } .queued with
          connecting := true
          attempts := s.attempts ++ [none] }

/-- The first section of `_detach_stale_backend` -/
def detach (s : State) (n : ℕ) (c : Call) : State :=
  if s.retired then s.unlock.conclude n c true
  else
    match s.backend with
    | some h => s.goto n c (.probing h s.generation)
    | none => s.goto n c .checking

/-- The second section of `_detach_stale_backend` -/
def reconcile (s : State) (n : ℕ) (c : Call) (h generation : ℕ) (healthy : Bool) : State :=
  if s.retired then s.unlock.conclude n c true
  else if s.backend ≠ some h ∨ s.generation ≠ generation then s.goto n c .checking
  else if healthy then s.goto n c .checking
  else
    { s.unlock.goto n c (.stale h) with
      backend := none
      generation := s.generation + 1 }

/-- The section of `_connect_with_retries` before the attempts -/
def check (s : State) (n : ℕ) (c : Call) : State :=
  if s.retired then s.unlock.conclude n c true
  else if s.backend.isSome then s.unlock.conclude n c false
  else s.goto n c (.attempting 0)

/-- The publication of `_attempt_connection`, after the flag was read -/
def publish (s : State) (n : ℕ) (c : Call) (h : ℕ) : State :=
  { s.unlock.conclude n c false with
    backend := some h
    generation := s.generation + 1
    stateLock := none }

/-- The handler of a failed attempt in `_connect_with_retries` -/
def retryOrRaise (s : State) (retryAttempts n : ℕ) (c : Call) (attempt : ℕ) (again : Bool) : State :=
  if s.retired then s.unlock.conclude n c true
  else if attempt < retryAttempts ∧ again then s.goto n c (.attempting (attempt + 1))
  else s.unlock.conclude n c true

/-- `_complete_lazy_connection_attempt` -/
def completeAttempt (s : State) (n : ℕ) (c : Call) (error : Bool) : State :=
  match c.lazy with
  | none => s.goto n c .raised
  | some attempt =>
    match s.attempts[attempt]? with
    | some (some published) => s.goto n c (if published then .raised else .reading)
    | _ =>
      let error := error || s.retired || s.backend.isNone
      { s.goto n c (if error then .raised else .reading) with
        attempts := s.attempts.set attempt (some error)
        connecting := false }

/-- The last section of `backend` -/
def readBackend (s : State) (n : ℕ) (c : Call) : State :=
  s.goto n c (if s.backend.isSome then .returned s.backend else .raised)

/-- A finalizer takes over: what is published becomes the retiring backend, and the first one
disconnects it. -/
def claimFinalization (s : State) (n : ℕ) (c : Call) : State :=
  let moves := s.retiringBackend.isNone ∧ s.backend.isSome
  let retiring := if moves then s.backend else s.retiringBackend
  { s.goto n c (.tearing (if s.disconnectStarted then none else retiring)) with
    finalizing := true
    finalizer := some n
    retiringBackend := retiring
    backend := if moves then none else s.backend
    generation := if moves then s.generation + 1 else s.generation
    disconnectStarted := true }

/-- The thread of the finalizer, as long as its frame lives. -/
def activeFinalizer (s : State) : Option ℕ :=
  if s.finalizing then
    (s.finalizer.bind fun m ↦ s.calls[m]?).bind fun c ↦
      if c.stage.finalizes then some c.thread else none
  else none

/-- The first section of `_finalize_retirement` -/
def finalizeRetirement (s : State) (n : ℕ) (c : Call) : State :=
  let s := { s with retired := true }
  if s.complete then
    { s.goto n c (.returned none) with finalizing := false, finalizer := none }
  else
    match s.activeFinalizer with
    | some thread => s.goto n c (if thread = c.thread then .returned none else .waiting)
    | none => s.claimFinalization n c

/-- The section of the wait in `_finalize_retirement` -/
def recheckFinalizer (s : State) (n : ℕ) (c : Call) : Option State :=
  if s.complete then some (s.goto n c (.returned none))
  else if s.activeFinalizer.isSome then none
  else some (s.claimFinalization n c)

/-- `_publish_retirement_complete` -/
def publishRetirementComplete (s : State) (n : ℕ) (c : Call) : State :=
  { s.goto n c (.returned none) with
    complete := true
    finalizing := false
    finalizer := none
    retiringBackend := none }

/-- What a call needs no lock for. -/
def actFree (s : State) (n : ℕ) (c : Call) : Event → Option State
  | .next =>
    match c.stage with
    | .awaiting attempt =>
      match s.attempts[attempt]? with
      | some (some error) => some (s.goto n c (if error then .raised else .accessing))
      | _ => none
    | .queued =>
      if s.connectLock = none then some { s.goto n c .detaching with connectLock := some n }
      else none
    | .publishing h => some (s.publish n c h)
    | .discarding attempt h => some ((s.disconnect h).goto n c (.failed attempt))
    | .stale h => some ((s.disconnect h).goto n c .rechecking)
    | .tearing (some h) => some ((s.disconnect h).goto n c .finishing)
    | .tearing none => some (s.goto n c .finishing)
    | _ => none
  | .probed none =>
    match c.stage with
    | .probing .. => some (s.unlock.conclude n c true)
    | _ => none
  | .driver outcome =>
    match c.stage with
    | .connecting attempt =>
      match outcome with
      | .succeeded =>
        some { s.goto n c (.connected attempt s.handles.length) with handles := s.handles ++ [0] }
      | .failed => some (s.goto n c (.failed attempt))
      | .fatal => some (s.unlock.conclude n c true)
    | _ => none
  | .interrupted =>
    match c.stage with
    | .stale h => some ((s.disconnect h).conclude n c true)
    | .finishing => some (s.goto n c .raised)
    | _ => none
  | _ => none

/-- What a call does under `_lock`. -/
def actLocked (s : State) (retryAttempts n : ℕ) (c : Call) : Event → Option State
  | .next =>
    match c.stage with
    | .accessing => some (s.access n c)
    | .detaching => some (s.detach n c)
    | .checking => some (s.check n c)
    | .attempting attempt =>
      some (s.goto n c (if s.retired then .failed attempt else .connecting attempt))
    | .connected attempt h =>
      some (if s.retired then s.goto n c (.discarding attempt h)
        else { s.goto n c (.publishing h) with stateLock := some n })
    | .rechecking =>
      some (if s.retired then s.conclude n c true else s.goto n c .queued)
    | .completing error => some (s.completeAttempt n c error)
    | .reading => some (s.readBackend n c)
    | .entering => some (s.finalizeRetirement n c)
    | .waiting => s.recheckFinalizer n c
    | .finishing => some (s.publishRetirementComplete n c)
    | _ => none
  | .probed (some healthy) =>
    match c.stage with
    | .probing h generation => some (s.reconcile n c h generation healthy)
    | _ => none
  | .retry again =>
    match c.stage with
    | .failed attempt => some (s.retryOrRaise retryAttempts n c attempt again)
    | _ => none
  | _ => none

/-- One step, with `retryAttempts` of `_retry_policy`. -/
def step (retryAttempts : ℕ) (s : State) : Label → Option State
  | .connect thread => some { s with calls := s.calls ++ [⟨thread, none, .queued⟩] }
  | .access thread => some { s with calls := s.calls ++ [⟨thread, none, .accessing⟩] }
  | .retire thread =>
    some { s with retired := true, calls := s.calls ++ [⟨thread, none, .entering⟩] }
  | .act n event => s.calls[n]?.bind fun c ↦
      match s.actFree n c event with
      | some t => some t
      | none => if s.stateLock = none then s.actLocked retryAttempts n c event else none

end State

/-- The manager as a machine. -/
def machine (retryAttempts : ℕ) : Machine State Label where
  init := State.new
  step := State.step retryAttempts

/-! ## The invariant -/

/-- How often a backend was disconnected. -/
def State.disconnects (s : State) (h : ℕ) : ℕ := (s.handles[h]?).getD 0

/-- Every backend is in one place, and what a call relies on is still so. -/
structure State.Inv (s : State) : Prop where
  locked : ∀ (n : ℕ) (c : Call), s.calls[n]? = some c → c.stage.holds → s.connectLock = some n
  publishing : ∀ (n : ℕ) (c : Call), s.calls[n]? = some c → c.stage.publishes →
    s.stateLock = some n ∧ s.disconnectStarted = false
  clear : ∀ (n : ℕ) (c : Call), s.calls[n]? = some c → c.stage.clear → s.backend = none
  begun : s.disconnectStarted → s.backend = none ∧ s.retired
  waiting : ∀ (n : ℕ) (c : Call), s.calls[n]? = some c → c.stage.waits → s.retired
  retiring : s.disconnectStarted = false → s.retiringBackend = none
  /-- A backend is disconnected, published or carried, and only once in all. -/
  places : ∀ h : ℕ, s.disconnects h + (decide (s.backend = some h)).toNat +
    s.calls.countP (·.stage.carries h) = (decide (h < s.handles.length)).toNat

theorem Stage.holds_of_clear {stage : Stage} (h : stage.clear) : stage.holds := by
  cases stage <;> simp [Stage.clear, Stage.holds] at h ⊢

theorem Stage.clear_of_publishes {stage : Stage} (h : stage.publishes) : stage.clear := by
  cases stage <;> simp [Stage.publishes, Stage.clear] at h ⊢

theorem Stage.not_holds_of_waits {stage : Stage} (h : stage.waits) : ¬ stage.holds := by
  cases stage <;> simp [Stage.waits, Stage.holds] at h ⊢

theorem Stage.publishes_of_holds {stage : Stage} (h : stage.holds = false) :
    stage.publishes = false := by
  by_contra hp
  simp [Stage.holds_of_clear (Stage.clear_of_publishes (by simpa using hp))] at h

namespace State

variable {s t : State} {n : ℕ} {c d : Call} {h : ℕ}

theorem Inv.new : (new).Inv :=
  ⟨nofun, nofun, nofun, nofun, nofun, fun _ ↦ rfl, fun h ↦ by simp [State.new, disconnects]⟩

/-- A call that has just begun. -/
theorem Inv.begin (h : s.Inv) (hd : d.stage.holds = false) (hw : d.stage.waits = false)
    (hc : ∀ h, d.stage.carries h = false) (retired : Bool) (hretired : s.retired → retired) :
    Inv { s with retired, calls := s.calls ++ [d] } := by
  have hclear : d.stage.clear = false := by
    by_contra hne
    simp [Stage.holds_of_clear (by simpa using hne)] at hd
  refine ⟨fun n c hn ↦ ?_, fun n c hn ↦ ?_, fun n c hn ↦ ?_, ?_, fun n c hn hwait ↦ ?_, h.retiring,
    fun x ↦ ?_⟩
  · obtain ⟨rfl, rfl⟩ | hn := List.getElem?_concat_some hn
    · simp [hd]
    · exact h.locked n c hn
  · obtain ⟨rfl, rfl⟩ | hn := List.getElem?_concat_some hn
    · intro hp
      simp [Stage.clear_of_publishes hp] at hclear
    · exact h.publishing n c hn
  · obtain ⟨rfl, rfl⟩ | hn := List.getElem?_concat_some hn
    · simp [hclear]
    · exact h.clear n c hn
  · exact fun hs ↦ ⟨(h.begun hs).1, hretired (h.begun hs).2⟩
  · obtain ⟨rfl, rfl⟩ | hn := List.getElem?_concat_some hn
    · simp [hw] at hwait
    · exact hretired (h.waiting n c hn hwait)
  · have := h.places x
    simp only [List.countP_concat, hc x, Bool.toNat_false, Nat.add_zero]
    exact this

/-- One call moves, and the shared state with it. -/
theorem Inv.update (h : s.Inv) (hn : s.calls[n]? = some c) (hcalls : t.calls = s.calls.set n d)
    (hholds : d.stage.holds → t.connectLock = some n)
    (hlock : ∀ m ≠ n, s.connectLock = some m → t.connectLock = some m)
    (hpublishes : d.stage.publishes → t.stateLock = some n ∧ t.disconnectStarted = false)
    (hstate : ∀ m ≠ n, s.stateLock = some m →
      t.stateLock = some m ∧ t.disconnectStarted = s.disconnectStarted)
    (hclear : d.stage.clear → t.backend = none)
    (hbackend : s.backend = none → t.backend = none ∨ c.stage.holds)
    (hbegun : t.disconnectStarted → t.backend = none ∧ t.retired)
    (hretired : s.retired → t.retired) (hwaits : d.stage.waits → t.retired)
    (hretiring : t.disconnectStarted = false → t.retiringBackend = none)
    (hplaces : ∀ x, t.disconnects x + (decide (t.backend = some x)).toNat +
        (d.stage.carries x).toNat + (decide (x < s.handles.length)).toNat =
      s.disconnects x + (decide (s.backend = some x)).toNat + (c.stage.carries x).toNat +
        (decide (x < t.handles.length)).toNat) : t.Inv := by
  refine ⟨fun m b hm hb ↦ ?_, fun m b hm hb ↦ ?_, fun m b hm hb ↦ ?_, hbegun, fun m b hm hb ↦ ?_,
    hretiring, fun x ↦ ?_⟩
  · rw [hcalls] at hm
    obtain ⟨rfl, rfl⟩ | ⟨hne, hm⟩ := List.getElem?_set_some hm
    · exact hholds hb
    · exact hlock m hne (h.locked m b hm hb)
  · rw [hcalls] at hm
    obtain ⟨rfl, rfl⟩ | ⟨hne, hm⟩ := List.getElem?_set_some hm
    · exact hpublishes hb
    · obtain ⟨hl, hs⟩ := h.publishing m b hm hb
      obtain ⟨hl', hs'⟩ := hstate m hne hl
      exact ⟨hl', hs'.trans hs⟩
  · rw [hcalls] at hm
    obtain ⟨rfl, rfl⟩ | ⟨hne, hm⟩ := List.getElem?_set_some hm
    · exact hclear hb
    · rcases hbackend (h.clear m b hm hb) with hnone | hc
      · exact hnone
      · -- Two calls cannot both have the lock.
        have hm' := h.locked m b hm (Stage.holds_of_clear hb)
        rw [h.locked n c hn hc] at hm'
        exact absurd (Option.some.inj hm').symm hne
  · rw [hcalls] at hm
    obtain ⟨rfl, rfl⟩ | ⟨-, hm⟩ := List.getElem?_set_some hm
    · exact hwaits hb
    · exact hretired (h.waiting m b hm hb)
  · have hold := h.places x
    have hnew := List.countP_set_add (fun b : Call ↦ b.stage.carries x) (b := d) hn
    have hx := hplaces x
    have hc := List.toNat_le_countP (fun b : Call ↦ b.stage.carries x) hn
    rw [hcalls]
    omega

/-- The published backend, its disconnects and the retirement are as before. -/
structure Same (s t : State) : Prop where
  backend : t.backend = s.backend
  handles : t.handles = s.handles
  started : t.disconnectStarted = s.disconnectStarted
  retiring : t.disconnectStarted = false → t.retiringBackend = s.retiringBackend
  retired : s.retired → t.retired
  stateLock : t.stateLock = s.stateLock

/-- A call moves between stages in which it has nothing in its hands that it had not before. -/
theorem Inv.move (h : s.Inv) (hn : s.calls[n]? = some c) (hcalls : t.calls = s.calls.set n d)
    (hsame : s.Same t) (hholds : d.stage.holds → t.connectLock = some n)
    (hlock : ∀ m ≠ n, s.connectLock = some m → t.connectLock = some m)
    (hclear : d.stage.clear → s.backend = none) (hpublishes : d.stage.publishes = false)
    (hwaits : d.stage.waits → t.retired)
    (hcarries : ∀ x, d.stage.carries x = c.stage.carries x) : t.Inv := by
  refine h.update hn hcalls hholds hlock (by simp [hpublishes]) ?_ ?_ ?_ ?_ hsame.retired hwaits ?_
    fun x ↦ ?_
  · exact fun m _ hm ↦ ⟨hsame.stateLock.trans hm, hsame.started⟩
  · exact fun hd ↦ hsame.backend.trans (hclear hd)
  · exact fun hs ↦ .inl (hsame.backend.trans hs)
  · intro hs
    obtain ⟨hb, hr⟩ := h.begun (hsame.started ▸ hs)
    exact ⟨hsame.backend.trans hb, hsame.retired hr⟩
  · exact fun hs ↦ (hsame.retiring hs).trans (h.retiring (hsame.started ▸ hs))
  · simp only [disconnects, hsame.handles, hsame.backend, hcarries x]

/-- A call without `_connect_lock` moves, and takes nothing. -/
theorem Inv.goto (h : s.Inv) (hn : s.calls[n]? = some c) (hcalls : t.calls = s.calls.set n d)
    (hsame : s.Same t) (hlock : t.connectLock = s.connectLock) (hd : d.stage.holds = false)
    (hwaits : d.stage.waits → t.retired) (hcarries : ∀ x, d.stage.carries x = c.stage.carries x) :
    t.Inv := by
  refine h.move hn hcalls hsame (by simp [hd]) (fun m _ hm ↦ hlock.trans hm) ?_ ?_ hwaits hcarries
  · intro hc
    simp [Stage.holds_of_clear hc] at hd
  · exact Stage.publishes_of_holds hd

/-- A call moves on with `_connect_lock`. -/
theorem Inv.hold (h : s.Inv) (hn : s.calls[n]? = some c) (hc : c.stage.holds) {stage : Stage}
    (hstage : stage.holds) (hclear : stage.clear → s.backend = none)
    (hpublishes : stage.publishes = false)
    (hcarries : ∀ x, stage.carries x = c.stage.carries x) : (s.goto n c stage).Inv :=
  h.move hn rfl ⟨rfl, rfl, rfl, fun _ ↦ rfl, id, rfl⟩ (fun _ ↦ h.locked n c hn hc)
    (fun _ _ hm ↦ hm) hclear hpublishes (fun hw ↦ absurd hstage (Stage.not_holds_of_waits hw)) hcarries

theorem conclude_calls (s : State) (n : ℕ) (c : Call) (error : Bool) :
    ∃ d : Call, (s.conclude n c error).calls = s.calls.set n d ∧ d.stage.holds = false ∧
      d.stage.waits = false ∧ ∀ x, d.stage.carries x = false := by
  refine ⟨_, rfl, ?_⟩
  dsimp only
  split
  · exact ⟨rfl, rfl, fun _ ↦ rfl⟩
  · split
    · exact ⟨rfl, rfl, fun _ ↦ rfl⟩
    · exact ⟨rfl, rfl, fun _ ↦ rfl⟩

/-- A connect is over that had `_connect_lock`. -/
theorem Inv.conclude_unlock (h : s.Inv) (hn : s.calls[n]? = some c) (hc : c.stage.holds)
    (hcarries : ∀ x, c.stage.carries x = false) (error : Bool) :
    (s.unlock.conclude n c error).Inv := by
  obtain ⟨d, hcalls, hd, hw, hdc⟩ := conclude_calls s.unlock n c error
  refine h.move hn hcalls ⟨rfl, rfl, rfl, fun _ ↦ rfl, id, rfl⟩ (by simp [hd]) ?_ ?_ ?_ (by simp [hw])
    ?_
  · intro m hne hm
    rw [h.locked n c hn hc] at hm
    exact absurd (Option.some.inj hm).symm hne
  · intro hclear
    simp [Stage.holds_of_clear hclear] at hd
  · exact Stage.publishes_of_holds hd
  · exact fun x ↦ (hdc x).trans (hcarries x).symm

/-- What a call carries was connected, and neither published nor disconnected. -/
theorem Inv.of_carries (h : s.Inv) (hn : s.calls[n]? = some c) {x : ℕ} (hc : c.stage.carries x) :
    x < s.handles.length ∧ s.disconnects x = 0 ∧ s.backend ≠ some x := by
  have hplaces := h.places x
  have hcount := List.toNat_le_countP (fun b : Call ↦ b.stage.carries x) hn
  simp only [hc, Bool.toNat_true] at hcount
  have hle := Bool.toNat_le (decide (x < s.handles.length))
  refine ⟨?_, by omega, ?_⟩
  · by_contra hlt
    simp only [hlt, decide_false, Bool.toNat_false] at hplaces
    omega
  · intro hb
    simp only [hb, decide_true, Bool.toNat_true] at hplaces
    omega

theorem disconnects_disconnect (hx : h < s.handles.length) (x : ℕ) :
    (s.disconnect h).disconnects x = s.disconnects x + (decide (x = h)).toNat := by
  unfold disconnects State.disconnect
  rw [List.getElem?_modify]
  by_cases hxh : h = x
  · subst hxh
    simp [List.getElem?_eq_getElem hx]
  · simp [hxh, Ne.symm hxh]

/-- A call disconnects what it carries. -/
theorem Inv.disconnect (hs : s.Inv) (hn : s.calls[n]? = some c)
    (hcarries : ∀ x, c.stage.carries x = decide (x = h)) (hcalls : t.calls = s.calls.set n d)
    (hsame : (s.disconnect h).Same t) (hlock : t.connectLock = s.connectLock)
    (hd : d.stage.holds → c.stage.clear) (hpublishes : d.stage.publishes = false)
    (hwaits : d.stage.waits = false) (hdc : ∀ x, d.stage.carries x = false) : t.Inv := by
  obtain ⟨hlt, -, -⟩ := hs.of_carries hn (x := h) (by simp [hcarries])
  have hmodify : (s.disconnect h).handles.length = s.handles.length := List.length_modify ..
  refine hs.update hn hcalls ?_ (fun m _ hm ↦ hlock.trans hm) (by simp [hpublishes]) ?_ ?_ ?_ ?_
    hsame.retired (by simp [hwaits]) ?_ fun x ↦ ?_
  · intro hdh
    exact hlock.trans (hs.locked n c hn (Stage.holds_of_clear (hd hdh)))
  · exact fun m _ hm ↦ ⟨hsame.stateLock.trans hm, hsame.started⟩
  · exact fun hclear ↦ hsame.backend.trans (hs.clear n c hn (hd (Stage.holds_of_clear hclear)))
  · exact fun hb ↦ .inl (hsame.backend.trans hb)
  · intro hb
    obtain ⟨hb, hr⟩ := hs.begun (hsame.started ▸ hb)
    exact ⟨hsame.backend.trans hb, hsame.retired hr⟩
  · exact fun hb ↦ (hsame.retiring hb).trans (hs.retiring (hsame.started ▸ hb))
  · have hdisconnects : t.disconnects x = (s.disconnect h).disconnects x := by
      rw [disconnects, hsame.handles]
      rfl
    have hbackend : t.backend = s.backend := hsame.backend
    rw [hdisconnects, disconnects_disconnect hlt, hbackend, hsame.handles, hmodify, hcarries x,
      hdc x, Bool.toNat_false]
    omega

/-- The publication: nothing was published before. -/
theorem Inv.publish (hs : s.Inv) (hn : s.calls[n]? = some c) (hc : c.stage = .publishing h) :
    (s.publish n c h).Inv := by
  obtain ⟨d, hcalls, hd, hw, hdc⟩ := conclude_calls s.unlock n c false
  have hholds := hs.locked n c hn (by simp [hc, Stage.holds])
  have hclear := hs.clear n c hn (by simp [hc, Stage.clear])
  obtain ⟨hstate, hstarted⟩ := hs.publishing n c hn (by simp [hc, Stage.publishes])
  refine hs.update hn hcalls (by simp [hd]) ?_ ?_ ?_ ?_ ?_ ?_ id (by simp [hw]) ?_ fun x ↦ ?_
  · intro m hne hm
    rw [hholds] at hm
    exact absurd (Option.some.inj hm).symm hne
  · simp [Stage.publishes_of_holds hd]
  · intro m hne hm
    rw [hstate] at hm
    exact absurd (Option.some.inj hm).symm hne
  · intro hdclear
    simp [Stage.holds_of_clear hdclear] at hd
  · exact fun _ ↦ .inr (by simp [hc, Stage.holds])
  · intro hb
    simp [State.publish, State.conclude, State.goto, State.unlock, hstarted] at hb
  · exact hs.retiring
  · rw [hdc x, hc, hclear]
    simp only [State.publish, State.conclude, State.goto, State.unlock, disconnects,
      Stage.carries, Option.some.injEq, reduceCtorEq, decide_false, Bool.toNat_false]
    omega

/-- A backend that was found to be down is detached, by the call that will disconnect it. -/
theorem Inv.detachStale (hs : s.Inv) (hn : s.calls[n]? = some c) {generation : ℕ}
    (hc : c.stage = .probing h generation) (hb : s.backend = some h) :
    Inv { s.unlock.goto n c (.stale h) with backend := none, generation := s.generation + 1 } := by
  have hholds := hs.locked n c hn (by simp [hc, Stage.holds])
  refine hs.update hn rfl (by simp [Stage.holds]) ?_ (by simp [Stage.publishes]) ?_ (fun _ ↦ rfl)
    (fun _ ↦ .inl rfl) (fun hd ↦ ⟨rfl, (hs.begun hd).2⟩) id (by simp [Stage.waits]) hs.retiring
    fun x ↦ ?_
  · intro m hne hm
    rw [hholds] at hm
    exact absurd (Option.some.inj hm).symm hne
  · exact fun m _ hm ↦ ⟨hm, rfl⟩
  · rw [hc, hb]
    change s.disconnects x + 0 + (decide (h = x)).toNat + (decide (x < s.handles.length)).toNat =
      s.disconnects x + (decide (some h = some x)).toNat + 0 + (decide (x < s.handles.length)).toNat
    simp only [Option.some.injEq]
    omega

/-- The first finalizer takes what is published; later ones find nothing. -/
theorem Inv.claimFinalization (hs : s.Inv) (hn : s.calls[n]? = some c)
    (hcarries : ∀ x, c.stage.carries x = false) (hlock : s.stateLock = none) (hretired : s.retired) : (s.claimFinalization n c).Inv := by
  have hstate : ∀ m ≠ n, s.stateLock = some m → (s.claimFinalization n c).stateLock = some m ∧
      (s.claimFinalization n c).disconnectStarted = s.disconnectStarted := by
    intro m _ hm
    simp [hlock] at hm
  cases hstarted : s.disconnectStarted with
  | true =>
    have hb := (hs.begun hstarted).1
    refine hs.update hn rfl (by simp [Stage.holds]) (fun _ _ hm ↦ hm) (by simp [Stage.publishes])
      hstate (by simp [Stage.clear]) ?_ ?_ id (by simp [Stage.waits]) (fun hd ↦ absurd hd (by simp [State.claimFinalization]))
      fun x ↦ ?_
    · exact fun _ ↦ .inl (by simp [State.claimFinalization, hb])
    · exact fun _ ↦ ⟨by simp [State.claimFinalization, hb], hretired⟩
    · rw [hcarries x]
      simp [State.claimFinalization, State.goto, disconnects, hb, hstarted, Stage.carries]
  | false =>
    have hr := hs.retiring hstarted
    have hnone : (s.claimFinalization n c).backend = none := by
      cases hb : s.backend <;> simp [State.claimFinalization, hr, hb]
    refine hs.update hn rfl (by simp [Stage.holds]) (fun _ _ hm ↦ hm) (by simp [Stage.publishes])
      hstate (by simp [Stage.clear]) (fun _ ↦ .inl hnone) (fun _ ↦ ⟨hnone, hretired⟩) id
      (by simp [Stage.waits]) (fun hd ↦ absurd hd (by simp [State.claimFinalization])) fun x ↦ ?_
    rw [hnone, hcarries x]
    cases hb : s.backend with
    | none => simp [State.claimFinalization, State.goto, disconnects, hb, hr, hstarted, Stage.carries]
    | some h =>
      simp only [State.claimFinalization, State.goto, disconnects, hb, hr, hstarted, Stage.carries]
      simp

theorem same_goto (s : State) (n : ℕ) (c : Call) (stage : Stage) : s.Same (s.goto n c stage) :=
  ⟨rfl, rfl, rfl, fun _ ↦ rfl, id, rfl⟩

/-- A call that carries nothing moves without `_connect_lock`. -/
theorem Inv.pass (hs : s.Inv) (hn : s.calls[n]? = some c) (hc : ∀ x, c.stage.carries x = false)
    {stage : Stage} (hholds : stage.holds = false) (hwaits : stage.waits → s.retired)
    (hcarries : ∀ x, stage.carries x = false) : (s.goto n c stage).Inv :=
  hs.goto hn rfl (s.same_goto n c stage) rfl hholds hwaits fun x ↦ (hcarries x).trans (hc x).symm

theorem Inv.access (hs : s.Inv) (hn : s.calls[n]? = some c) (hc : c.stage = .accessing) :
    (s.access n c).Inv := by
  have hcarries : ∀ x, c.stage.carries x = false := fun x ↦ by simp [hc, Stage.carries]
  unfold State.access
  split
  · exact hs.pass hn hcarries rfl (by rintro ⟨⟩) fun _ ↦ rfl
  · split
    · exact hs.pass hn hcarries rfl (by rintro ⟨⟩) fun _ ↦ rfl
    · split
      · exact hs.pass hn hcarries rfl (by rintro ⟨⟩) fun _ ↦ rfl
      · exact hs.goto hn rfl ⟨rfl, rfl, rfl, fun _ ↦ rfl, id, rfl⟩ rfl rfl (by rintro ⟨⟩)
          fun x ↦ (hcarries x).symm

theorem Inv.detach (hs : s.Inv) (hn : s.calls[n]? = some c) (hc : c.stage = .detaching) :
    (s.detach n c).Inv := by
  have hholds : c.stage.holds := by simp [hc, Stage.holds]
  have hcarries : ∀ x, c.stage.carries x = false := fun x ↦ by simp [hc, Stage.carries]
  unfold State.detach
  split
  · exact hs.conclude_unlock hn hholds hcarries true
  · split
    · exact hs.hold hn hholds rfl (by simp [Stage.clear]) rfl fun x ↦ (hcarries x).symm
    · exact hs.hold hn hholds rfl (by simp [Stage.clear]) rfl fun x ↦ (hcarries x).symm

theorem Inv.reconcile (hs : s.Inv) (hn : s.calls[n]? = some c) {generation : ℕ}
    (hc : c.stage = .probing h generation) (healthy : Bool) :
    (s.reconcile n c h generation healthy).Inv := by
  have hholds : c.stage.holds := by simp [hc, Stage.holds]
  have hcarries : ∀ x, c.stage.carries x = false := fun x ↦ by simp [hc, Stage.carries]
  unfold State.reconcile
  split
  · exact hs.conclude_unlock hn hholds hcarries true
  · split
    · exact hs.hold hn hholds rfl (by simp [Stage.clear]) rfl fun x ↦ (hcarries x).symm
    · rename_i hsame
      split
      · exact hs.hold hn hholds rfl (by simp [Stage.clear]) rfl fun x ↦ (hcarries x).symm
      · push Not at hsame
        exact hs.detachStale hn hc hsame.1

theorem Inv.check (hs : s.Inv) (hn : s.calls[n]? = some c) (hc : c.stage = .checking) :
    (s.check n c).Inv := by
  have hholds : c.stage.holds := by simp [hc, Stage.holds]
  have hcarries : ∀ x, c.stage.carries x = false := fun x ↦ by simp [hc, Stage.carries]
  unfold State.check
  split
  · exact hs.conclude_unlock hn hholds hcarries true
  · split
    · exact hs.conclude_unlock hn hholds hcarries false
    · rename_i hb
      exact hs.hold hn hholds rfl (fun _ ↦ by simpa using hb) rfl fun x ↦ (hcarries x).symm

theorem Inv.retryOrRaise (hs : s.Inv) (hn : s.calls[n]? = some c) {attempt : ℕ}
    (hc : c.stage = .failed attempt) (retryAttempts : ℕ) (again : Bool) :
    (s.retryOrRaise retryAttempts n c attempt again).Inv := by
  have hholds : c.stage.holds := by simp [hc, Stage.holds]
  have hcarries : ∀ x, c.stage.carries x = false := fun x ↦ by simp [hc, Stage.carries]
  unfold State.retryOrRaise
  split
  · exact hs.conclude_unlock hn hholds hcarries true
  · split
    · exact hs.hold hn hholds rfl (fun _ ↦ hs.clear n c hn (by simp [hc, Stage.clear])) rfl
        fun x ↦ (hcarries x).symm
    · exact hs.conclude_unlock hn hholds hcarries true

theorem Inv.completeAttempt (hs : s.Inv) (hn : s.calls[n]? = some c) {e : Bool}
    (hc : c.stage = .completing e) (error : Bool) : (s.completeAttempt n c error).Inv := by
  have hcarries : ∀ x, c.stage.carries x = false := fun x ↦ by simp [hc, Stage.carries]
  have hstage : ∀ e : Bool, (if e then Stage.raised else .reading).holds = false ∧
      ((if e then Stage.raised else .reading).waits → s.retired) ∧
      ∀ x, (if e then Stage.raised else .reading).carries x = false := by
    intro e
    cases e <;> exact ⟨rfl, nofun, fun _ ↦ rfl⟩
  unfold State.completeAttempt
  split
  · exact hs.pass hn hcarries rfl nofun fun _ ↦ rfl
  · split
    · exact hs.pass hn hcarries (hstage _).1 (hstage _).2.1 (hstage _).2.2
    · exact hs.goto hn rfl ⟨rfl, rfl, rfl, fun _ ↦ rfl, id, rfl⟩ rfl (hstage _).1 (hstage _).2.1
        fun x ↦ ((hstage _).2.2 x).trans (hcarries x).symm

theorem Inv.readBackend (hs : s.Inv) (hn : s.calls[n]? = some c) (hc : c.stage = .reading) :
    (s.readBackend n c).Inv := by
  have hcarries : ∀ x, c.stage.carries x = false := fun x ↦ by simp [hc, Stage.carries]
  unfold State.readBackend
  split
  · exact hs.pass hn hcarries rfl nofun fun _ ↦ rfl
  · exact hs.pass hn hcarries rfl nofun fun _ ↦ rfl

/-- The flag alone is set. -/
theorem Inv.retire (hs : s.Inv) : Inv { s with retired := true } :=
  ⟨hs.locked, hs.publishing, hs.clear, fun hd ↦ ⟨(hs.begun hd).1, rfl⟩, fun _ _ _ _ ↦ rfl,
    hs.retiring, hs.places⟩

theorem Inv.finalizeRetirement (hs : s.Inv) (hn : s.calls[n]? = some c) (hc : c.stage = .entering)
    (hlock : s.stateLock = none) : (s.finalizeRetirement n c).Inv := by
  have hcarries : ∀ x, c.stage.carries x = false := fun x ↦ by simp [hc, Stage.carries]
  unfold State.finalizeRetirement
  dsimp only
  split
  · exact hs.retire.goto hn rfl ⟨rfl, rfl, rfl, fun _ ↦ rfl, id, rfl⟩ rfl rfl (by rintro ⟨⟩)
      fun x ↦ (hcarries x).symm
  · split
    · split
      · exact hs.retire.pass hn hcarries rfl (by rintro ⟨⟩) fun _ ↦ rfl
      · exact hs.retire.pass hn hcarries rfl (fun _ ↦ rfl) fun _ ↦ rfl
    · exact hs.retire.claimFinalization hn hcarries hlock rfl

theorem Inv.recheckFinalizer (hs : s.Inv) (hn : s.calls[n]? = some c) (hc : c.stage = .waiting)
    (hlock : s.stateLock = none) (ht : s.recheckFinalizer n c = some t) : t.Inv := by
  have hcarries : ∀ x, c.stage.carries x = false := fun x ↦ by simp [hc, Stage.carries]
  unfold State.recheckFinalizer at ht
  split at ht
  · obtain ⟨⟩ := ht
    exact hs.pass hn hcarries rfl nofun fun _ ↦ rfl
  · split at ht
    · simp at ht
    · obtain ⟨⟩ := ht
      exact hs.claimFinalization hn hcarries hlock (hs.waiting n c hn (by simp [hc, Stage.waits]))

theorem Inv.publishRetirementComplete (hs : s.Inv) (hn : s.calls[n]? = some c)
    (hc : c.stage = .finishing) : (s.publishRetirementComplete n c).Inv := by
  have hcarries : ∀ x, c.stage.carries x = false := fun x ↦ by simp [hc, Stage.carries]
  refine hs.goto hn rfl ⟨rfl, rfl, rfl, fun hd ↦ ?_, id, rfl⟩ rfl rfl nofun
    fun x ↦ (hcarries x).symm
  exact (hs.retiring hd).symm

/-- The backend's `connect` has succeeded: there is a new backend, and the call has it. -/
theorem Inv.succeed (hs : s.Inv) (hn : s.calls[n]? = some c) {attempt : ℕ}
    (hc : c.stage = .connecting attempt) :
    Inv { s.goto n c (.connected attempt s.handles.length) with handles := s.handles ++ [0] } := by
  have hnone := hs.clear n c hn (by simp [hc, Stage.clear])
  refine hs.update hn rfl (fun _ ↦ hs.locked n c hn (by simp [hc, Stage.holds])) (fun _ _ hm ↦ hm)
    (by simp [Stage.publishes]) (fun _ _ hm ↦ ⟨hm, rfl⟩) (fun _ ↦ hnone) .inl hs.begun id
    (by simp [Stage.waits]) hs.retiring fun x ↦ ?_
  have hdisconnects : ((s.handles ++ [0])[x]?).getD 0 = s.disconnects x := by
    unfold disconnects
    rcases Nat.lt_trichotomy x s.handles.length with hx | rfl | hx
    · rw [List.getElem?_append_left hx]
    · simp
    · rw [List.getElem?_eq_none (by simp; omega), List.getElem?_eq_none (by omega)]
  rw [hc]
  change ((s.handles ++ [0])[x]?).getD 0 + (decide (s.backend = some x)).toNat +
    (decide (s.handles.length = x)).toNat + (decide (x < s.handles.length)).toNat =
      s.disconnects x + (decide (s.backend = some x)).toNat + 0 +
        (decide (x < (s.handles ++ [0]).length)).toNat
  rw [hdisconnects, List.length_append, List.length_singleton]
  rcases Nat.lt_trichotomy x s.handles.length with hx | rfl | hx
  · simp [hx, hx.ne', Nat.lt_succ_of_lt hx]
  · simp
  · simp [hx.ne, Nat.not_lt.2 hx.le, Nat.not_lt.2 (Nat.succ_le_of_lt hx)]

/-- The flag was not set: the call keeps `_lock` until it has published. -/
theorem Inv.beginPublish (hs : s.Inv) (hn : s.calls[n]? = some c) {attempt : ℕ}
    (hc : c.stage = .connected attempt h) (hlock : s.stateLock = none) (hr : s.retired = false) :
    Inv { s.goto n c (.publishing h) with stateLock := some n } := by
  have hstarted : s.disconnectStarted = false := by
    by_contra hd
    simp [(hs.begun (by simpa using hd)).2] at hr
  refine hs.update hn rfl (fun _ ↦ hs.locked n c hn (by simp [hc, Stage.holds])) (fun _ _ hm ↦ hm)
    (fun _ ↦ ⟨rfl, hstarted⟩) ?_ (fun _ ↦ hs.clear n c hn (by simp [hc, Stage.clear])) .inl hs.begun
    id (by simp [Stage.waits]) hs.retiring fun x ↦ ?_
  · intro m _ hm
    simp [hlock] at hm
  · rw [hc]
    rfl

theorem Inv.actFree (hs : s.Inv) (hn : s.calls[n]? = some c) {event : Event}
    (ht : s.actFree n c event = some t) : t.Inv := by
  unfold State.actFree at ht
  split at ht
  · split at ht
    · -- The lazy attempt is over.
      rename_i attempt hc
      have hcarries : ∀ x, c.stage.carries x = false := fun x ↦ by simp [hc, Stage.carries]
      split at ht
      · obtain ⟨⟩ := ht
        split
        · exact hs.pass hn hcarries rfl nofun fun _ ↦ rfl
        · exact hs.pass hn hcarries rfl nofun fun _ ↦ rfl
      · simp at ht
    · rename_i hc
      obtain ⟨hfree, ⟨⟩⟩ := Option.ite_none_right_eq_some.1 ht
      refine hs.move hn rfl ⟨rfl, rfl, rfl, fun _ ↦ rfl, id, rfl⟩ (fun _ ↦ rfl) ?_ nofun rfl nofun
        fun x ↦ by simp [hc, Stage.carries]
      intro m _ hm
      simp [hfree] at hm
    · rename_i hc
      obtain ⟨⟩ := ht
      exact hs.publish hn hc
    · rename_i attempt h hc
      obtain ⟨⟩ := ht
      exact hs.disconnect hn (fun x ↦ by simp [hc, Stage.carries, eq_comm]) rfl
        (same_goto _ n c _) rfl (fun _ ↦ by simp [hc, Stage.clear]) rfl rfl fun _ ↦ rfl
    · rename_i h hc
      obtain ⟨⟩ := ht
      exact hs.disconnect hn (fun x ↦ by simp [hc, Stage.carries, eq_comm]) rfl
        (same_goto _ n c _) rfl nofun rfl rfl fun _ ↦ rfl
    · rename_i h hc
      obtain ⟨⟩ := ht
      exact hs.disconnect hn (fun x ↦ by simp [hc, Stage.carries, eq_comm]) rfl
        (same_goto _ n c _) rfl nofun rfl rfl fun _ ↦ rfl
    · rename_i hc
      obtain ⟨⟩ := ht
      exact hs.pass hn (fun x ↦ by simp [hc, Stage.carries]) rfl nofun fun _ ↦ rfl
    · simp at ht
  · split at ht
    · rename_i hc
      obtain ⟨⟩ := ht
      exact hs.conclude_unlock hn (by simp [hc, Stage.holds]) (fun x ↦ by simp [hc, Stage.carries]) _
    · simp at ht
  · split at ht
    · rename_i attempt hc
      have hholds : c.stage.holds := by simp [hc, Stage.holds]
      have hcarries : ∀ x, c.stage.carries x = false := fun x ↦ by simp [hc, Stage.carries]
      split at ht
      · obtain ⟨⟩ := ht
        exact hs.succeed hn hc
      · obtain ⟨⟩ := ht
        exact hs.hold hn hholds rfl (fun _ ↦ hs.clear n c hn (by simp [hc, Stage.clear])) rfl
          fun x ↦ (hcarries x).symm
      · obtain ⟨⟩ := ht
        exact hs.conclude_unlock hn hholds hcarries true
    · simp at ht
  · split at ht
    · rename_i h hc
      obtain ⟨⟩ := ht
      obtain ⟨d, hcalls, hd, hw, hdc⟩ := conclude_calls (s.disconnect h) n c true
      exact hs.disconnect hn (fun x ↦ by simp [hc, Stage.carries, eq_comm]) hcalls
        (same_goto _ n c _) rfl (by simp [hd]) (Stage.publishes_of_holds hd) hw hdc
    · rename_i hc
      obtain ⟨⟩ := ht
      exact hs.pass hn (fun x ↦ by simp [hc, Stage.carries]) rfl nofun fun _ ↦ rfl
    · simp at ht
  · simp at ht

theorem Inv.actLocked (hs : s.Inv) (hn : s.calls[n]? = some c) (hlock : s.stateLock = none)
    {retryAttempts : ℕ} {event : Event} (ht : s.actLocked retryAttempts n c event = some t) :
    t.Inv := by
  unfold State.actLocked at ht
  split at ht
  · split at ht
    · rename_i hc
      obtain ⟨⟩ := ht
      exact hs.access hn hc
    · rename_i hc
      obtain ⟨⟩ := ht
      exact hs.detach hn hc
    · rename_i hc
      obtain ⟨⟩ := ht
      exact hs.check hn hc
    · rename_i attempt hc
      obtain ⟨⟩ := ht
      have hholds : c.stage.holds := by simp [hc, Stage.holds]
      have hnone := hs.clear n c hn (by simp [hc, Stage.clear])
      split
      · exact hs.hold hn hholds rfl (fun _ ↦ hnone) rfl fun x ↦ by simp [hc, Stage.carries]
      · exact hs.hold hn hholds rfl (fun _ ↦ hnone) rfl fun x ↦ by simp [hc, Stage.carries]
    · rename_i attempt h hc
      obtain ⟨⟩ := ht
      split
      · exact hs.hold hn (by simp [hc, Stage.holds]) rfl
          (fun _ ↦ hs.clear n c hn (by simp [hc, Stage.clear])) rfl
          fun x ↦ by simp [hc, Stage.carries]
      · rename_i hr
        exact hs.beginPublish hn hc hlock (by simpa using hr)
    · rename_i hc
      obtain ⟨⟩ := ht
      have hcarries : ∀ x, c.stage.carries x = false := fun x ↦ by simp [hc, Stage.carries]
      split
      · obtain ⟨d, hcalls, hd, hw, hdc⟩ := conclude_calls s n c true
        exact hs.goto hn hcalls (same_goto s n c _) rfl hd (by simp [hw])
          fun x ↦ (hdc x).trans (hcarries x).symm
      · exact hs.pass hn hcarries rfl nofun fun _ ↦ rfl
    · rename_i error hc
      obtain ⟨⟩ := ht
      exact hs.completeAttempt hn hc error
    · rename_i hc
      obtain ⟨⟩ := ht
      exact hs.readBackend hn hc
    · rename_i hc
      obtain ⟨⟩ := ht
      exact hs.finalizeRetirement hn hc hlock
    · rename_i hc
      exact hs.recheckFinalizer hn hc hlock ht
    · rename_i hc
      obtain ⟨⟩ := ht
      exact hs.publishRetirementComplete hn hc
    · simp at ht
  · split at ht
    · rename_i h generation hc
      obtain ⟨⟩ := ht
      exact hs.reconcile hn hc _
    · simp at ht
  · split at ht
    · rename_i attempt hc
      obtain ⟨⟩ := ht
      exact hs.retryOrRaise hn hc retryAttempts _
    · simp at ht
  · simp at ht

theorem Inv.step (hs : s.Inv) {retryAttempts : ℕ} {label : Label}
    (ht : s.step retryAttempts label = some t) : t.Inv := by
  cases label with
  | connect thread =>
    obtain ⟨⟩ := ht
    exact hs.begin rfl rfl (fun _ ↦ rfl) s.retired id
  | access thread =>
    obtain ⟨⟩ := ht
    exact hs.begin rfl rfl (fun _ ↦ rfl) s.retired id
  | retire thread =>
    obtain ⟨⟩ := ht
    exact hs.begin rfl rfl (fun _ ↦ rfl) true fun _ ↦ rfl
  | act n event =>
    obtain ⟨c, hn, ht⟩ := Option.bind_eq_some_iff.1 ht
    split at ht
    · rename_i u hu
      obtain ⟨⟩ := ht
      exact hs.actFree hn hu
    · obtain ⟨hlock, ht⟩ := Option.ite_none_right_eq_some.1 ht
      exact hs.actLocked hn hlock ht

end State

theorem inv_of_reachable {s : State} {retryAttempts : ℕ} (h : (machine retryAttempts).Reachable s) :
    s.Inv :=
  h.invariant (I := State.Inv) .new fun _ _ _ hs ht ↦ hs.step ht

/-! ## What is published -/

namespace State

variable {s t : State} {n : ℕ} {c : Call}

/-- Only the publication puts a backend in place, and the call has seen that there is none. -/
theorem Inv.backend_actFree (hs : s.Inv) (hn : s.calls[n]? = some c) {event : Event}
    (ht : s.actFree n c event = some t) : t.backend = s.backend ∨ s.backend = none := by
  by_cases hc : c.stage.publishes
  · exact .inr (hs.clear n c hn (Stage.clear_of_publishes hc))
  left
  unfold State.actFree at ht
  split at ht
  · split at ht
    · split at ht
      · obtain ⟨⟩ := ht
        rfl
      · simp at ht
    · obtain ⟨-, ⟨⟩⟩ := Option.ite_none_right_eq_some.1 ht
      rfl
    · rename_i hstage
      simp [hstage, Stage.publishes] at hc
    all_goals first | obtain ⟨⟩ := ht; rfl | simp at ht
  · split at ht
    all_goals first | obtain ⟨⟩ := ht; rfl | simp at ht
  · split at ht
    · split at ht
      all_goals
        obtain ⟨⟩ := ht
        rfl
    · simp at ht
  · split at ht
    all_goals first | obtain ⟨⟩ := ht; rfl | simp at ht
  · simp at ht

theorem access_backend : (s.access n c).backend = s.backend := by
  unfold State.access
  split
  · rfl
  · split
    · rfl
    · split <;> rfl

theorem detach_backend : (s.detach n c).backend = s.backend := by
  unfold State.detach
  split
  · rfl
  · split <;> rfl

theorem check_backend : (s.check n c).backend = s.backend := by
  unfold State.check
  split
  · rfl
  · split <;> rfl

theorem retryOrRaise_backend (retryAttempts attempt : ℕ) (again : Bool) :
    (s.retryOrRaise retryAttempts n c attempt again).backend = s.backend := by
  unfold State.retryOrRaise
  split
  · rfl
  · split <;> rfl

theorem completeAttempt_backend (error : Bool) :
    (s.completeAttempt n c error).backend = s.backend := by
  unfold State.completeAttempt
  split
  · rfl
  · split <;> rfl

theorem reconcile_backend (h generation : ℕ) (healthy : Bool) :
    (s.reconcile n c h generation healthy).backend = s.backend ∨
      (s.reconcile n c h generation healthy).backend = none := by
  unfold State.reconcile
  split
  · exact .inl rfl
  · split
    · exact .inl rfl
    · split
      · exact .inl rfl
      · exact .inr rfl

theorem claimFinalization_backend : (s.claimFinalization n c).backend = s.backend ∨
    (s.claimFinalization n c).backend = none := by
  simp only [State.claimFinalization]
  split
  · exact .inr rfl
  · exact .inl rfl

theorem finalizeRetirement_backend : (s.finalizeRetirement n c).backend = s.backend ∨
    (s.finalizeRetirement n c).backend = none := by
  unfold State.finalizeRetirement
  dsimp only
  split
  · exact .inl rfl
  · split
    · exact .inl rfl
    · exact claimFinalization_backend

theorem backend_actLocked {retryAttempts : ℕ} {event : Event}
    (ht : s.actLocked retryAttempts n c event = some t) :
    t.backend = s.backend ∨ t.backend = none := by
  unfold State.actLocked at ht
  split at ht
  · split at ht
    · obtain ⟨⟩ := ht
      exact .inl access_backend
    · obtain ⟨⟩ := ht
      exact .inl detach_backend
    · obtain ⟨⟩ := ht
      exact .inl check_backend
    · obtain ⟨⟩ := ht
      exact .inl rfl
    · obtain ⟨⟩ := ht
      left
      split <;> rfl
    · obtain ⟨⟩ := ht
      left
      split <;> rfl
    · obtain ⟨⟩ := ht
      exact .inl (completeAttempt_backend _)
    · obtain ⟨⟩ := ht
      exact .inl rfl
    · obtain ⟨⟩ := ht
      exact finalizeRetirement_backend
    · unfold State.recheckFinalizer at ht
      split at ht
      · obtain ⟨⟩ := ht
        exact .inl rfl
      · split at ht
        · simp at ht
        · obtain ⟨⟩ := ht
          exact claimFinalization_backend
    · obtain ⟨⟩ := ht
      exact .inl rfl
    · simp at ht
  · split at ht
    · obtain ⟨⟩ := ht
      exact reconcile_backend _ _ _
    · simp at ht
  · split at ht
    · obtain ⟨⟩ := ht
      exact .inl (retryOrRaise_backend _ _ _)
    · simp at ht
  · simp at ht

/-- A published backend is not replaced by another one in one step. -/
theorem Inv.backend_step (hs : s.Inv) {retryAttempts : ℕ} {label : Label}
    (ht : s.step retryAttempts label = some t) :
    t.backend = s.backend ∨ t.backend = none ∨ s.backend = none := by
  cases label with
  | connect thread =>
    obtain ⟨⟩ := ht
    exact .inl rfl
  | access thread =>
    obtain ⟨⟩ := ht
    exact .inl rfl
  | retire thread =>
    obtain ⟨⟩ := ht
    exact .inl rfl
  | act n event =>
    obtain ⟨c, hn, ht⟩ := Option.bind_eq_some_iff.1 ht
    split at ht
    · rename_i u hu
      obtain ⟨⟩ := ht
      exact (hs.backend_actFree hn hu).imp id .inr
    · obtain ⟨-, ht⟩ := Option.ite_none_right_eq_some.1 ht
      exact (backend_actLocked ht).imp id .inl

end State

/-- What a manager promises about its backends. -/
structure State.Accounted (retryAttempts : ℕ) (s : State) : Prop where
  once : ∀ h, s.disconnects h ≤ 1
  /-- One backend at a time: another one is published only after the first is detached. -/
  single : ∀ label t h h', s.step retryAttempts label = some t → s.backend = some h →
    t.backend = some h' → h' = h
  /-- What is published is connected, and was not disconnected. -/
  live : ∀ h, s.backend = some h → h < s.handles.length ∧ s.disconnects h = 0
  finalized : s.disconnectStarted → s.backend = none
  quiescent : (∀ c ∈ s.calls, c.stage.ended) → ∀ h < s.handles.length,
    s.backend = some h ∨ s.disconnects h = 1

theorem Stage.carries_of_ended {stage : Stage} (h : stage.ended) (x : ℕ) :
    stage.carries x = false := by
  cases stage <;> simp [Stage.ended, Stage.carries] at h ⊢

theorem State.Inv.accounted {s : State} (hs : s.Inv) (retryAttempts : ℕ) : s.Accounted retryAttempts where
  once h := by
    have hplaces := hs.places h
    have hle := Bool.toNat_le (decide (h < s.handles.length))
    omega
  single label t h h' ht hb hb' := by
    rcases hs.backend_step ht with heq | hnone | hnone
    · rw [heq, hb] at hb'
      exact (Option.some.inj hb').symm
    · simp [hnone] at hb'
    · simp [hnone] at hb
  live h hb := by
    have hplaces := hs.places h
    simp only [hb, decide_true, Bool.toNat_true] at hplaces
    have hlt : h < s.handles.length := by
      by_contra hlt
      simp only [hlt, decide_false, Bool.toNat_false] at hplaces
      omega
    simp only [hlt, decide_true, Bool.toNat_true] at hplaces
    exact ⟨hlt, by omega⟩
  finalized hd := (hs.begun hd).1
  quiescent hended h hlt := by
    have hplaces := hs.places h
    have hcount : s.calls.countP (·.stage.carries h) = 0 := by
      refine List.countP_eq_zero.2 fun c hc ↦ ?_
      simp [Stage.carries_of_ended (hended c hc)]
    by_cases hb : s.backend = some h
    · exact .inl hb
    · right
      simp only [hlt, hb, hcount, decide_true, decide_false, Bool.toNat_true,
        Bool.toNat_false] at hplaces
      omega

/-- No backend is lost, and none is disconnected twice: each one whose `connect` succeeded is at most
once disconnected, nothing is published over another backend or after the finalization has begun, and
when all calls are over each one is published or disconnected. -/
theorem accounted_of_reachable {s : State} {retryAttempts : ℕ}
    (h : (machine retryAttempts).Reachable s) : s.Accounted retryAttempts :=
  (inv_of_reachable h).accounted retryAttempts

/-- A connect, a second one that replaces a stale backend, and a release while that one is out. -/
def releasedRun : List Label :=
  [.connect 0] ++ List.replicate 4 (.act 0 .next) ++ [.act 0 (.driver .succeeded)] ++
    List.replicate 2 (.act 0 .next) ++ [.connect 1] ++ List.replicate 2 (.act 1 .next) ++
    [.act 1 (.probed (some false))] ++ List.replicate 6 (.act 1 .next) ++
    [.act 1 (.driver .succeeded), .retire 2] ++ List.replicate 2 (.act 1 .next) ++
    [.act 1 (.retry false)] ++ List.replicate 3 (.act 2 .next)

theorem accounted_of_reachable_released :
    ∃ s : State, (machine 3).run (machine 3).init releasedRun = some s ∧
      s.handles = [1, 1] ∧ s.calls.all (·.stage.ended) ∧ s.Accounted 3 := by
  obtain ⟨s, hs⟩ : ∃ s, (machine 3).run (machine 3).init releasedRun = some s :=
    Option.isSome_iff_exists.1 (by decide +kernel)
  have hhandles : ((machine 3).run (machine 3).init releasedRun).map (·.handles) = some [1, 1] := by
    decide +kernel
  have hended : ((machine 3).run (machine 3).init releasedRun).map
      (·.calls.all (·.stage.ended)) = some true := by
    decide +kernel
  rw [hs] at hhandles hended
  exact ⟨s, hs, by simpa using hhandles, by simpa using hended, accounted_of_reachable ⟨_, hs⟩⟩

end ConnectionLifecycle

end ScrapyExtension
