import Mathlib.Tactic
import ScrapyExtension.Machine.Basic
import ScrapyExtension.Machine.Threads

/-!
# The reservation of a spider's close

`BackendSpiderMixin.close_backend` reserves the mixin with `_close_in_progress` before it tears anything
down. A close that finds a setup, a component construction or a tracked operation in flight reserves the
mixin as well, but leaves the teardown to `finish_wait`, which the reactor runs once everything it waits for
has settled: `_close_after_construction_wait` builds a gate, and `finish_wait` calls `close_backend` again.
That call takes the reservation over when `_close_wait_finishing` is set and `_close_owner_thread_id` is
the calling thread.

## Steps

A section under `_lifecycle_lock` is one step; `close_backend` holds the lock, which is reentrant, while it
builds a gate. The reactor is running: what was deferred to a thread is settled on the reactor thread, and
only when that thread is not in the middle of a callback. Components are not part of the state. What a phase of the teardown does is up to the label.
-/

namespace ScrapyExtension

namespace CloseReservation

inductive Thread
  | reactor
  | worker (number : ℕ)
deriving DecidableEq

/-- What a getter constructs, the keys of `_component_constructions`. -/
inductive Kind
  | queue
  | dupefilter
  | scheduler
deriving DecidableEq

/-- `_BackendSetupAttempt` -/
structure SetupAttempt where
  number : ℕ
  ownerThread : Thread
  invalidated : Bool
deriving DecidableEq

/-- `_ComponentConstruction`. Its `done` event is set when it leaves `_component_constructions`. -/
structure Construction where
  number : ℕ
  kind : Kind
  ownerThread : Thread
  invalidated : Bool
deriving DecidableEq

/-- A `done` event. -/
inductive Waiter
  | setup (number : ℕ)
  | construction (number : ℕ)
deriving DecidableEq

/-- Where `finish_wait` is. -/
inductive Stage
  /-- The gate has not fired. -/
  | pending
  | fired
  /-- `_close_wait_finishing` was set, and `close_backend` is called next. -/
  | finishing
  /-- `close_backend` tears down. -/
  | entered
  /-- `close_backend` has returned, a `Deferred` or not. -/
  | leaving (deferred : Bool)
  | left
deriving DecidableEq

/-- The gate of a close that waits. -/
structure Gate where
  waiters : List Waiter
  /-- The worker that waits for the events is not done. -/
  waiting : Bool
  /-- The operations that `settle_gate` is attached to and that have not settled. -/
  operations : List ℕ
  remaining : ℕ
  stage : Stage
deriving DecidableEq

/-- A public `Deferred` of a close. -/
inductive Public
  | wait (gate : ℕ)
  | teardown
deriving DecidableEq

/-- A pass of the teardown. -/
structure Teardown where
  thread : Thread
  /-- The wait whose `finish_wait` called `close_backend`. -/
  gate : Option ℕ
  /-- What is left of scheduler, queue, dupefilter, snapshot lease, queue lease, orphans and manager. -/
  phases : ℕ
  /-- A phase is out, and its completion goes on with the next. -/
  suspended : Bool
  /-- `close_backend` has returned its `Deferred`. -/
  returned : Bool
deriving DecidableEq

structure State where
  closeInProgress : Bool
  closeOwnerThread : Option Thread
  closeWaitOperation : Option ℕ
  closeWaitOwnerThread : Option Thread
  closeWaitFinishing : Bool
  closeDeferred : Option Public
  setupAttempt : Option SetupAttempt
  componentConstructions : List Construction
  componentGeneration : ℕ
  /-- The tracked operations that have not settled. -/
  asyncComponentOperations : List ℕ
  gates : List Gate
  teardown : Option Teardown
  /-- How many attempts, constructions and operations there have been. -/
  made : ℕ
deriving DecidableEq

def State.initial : State where
  closeInProgress := false
  closeOwnerThread := none
  closeWaitOperation := none
  closeWaitOwnerThread := none
  closeWaitFinishing := false
  closeDeferred := none
  setupAttempt := none
  componentConstructions := []
  componentGeneration := 0
  asyncComponentOperations := []
  gates := []
  teardown := none
  made := 0

/-! ## `close_backend` up to the teardown -/

/-- What `close_backend` does with a call. -/
inductive Outcome
  /-- `self._close_deferred` is returned. -/
  | shared
  /-- "Backend spider close is already in progress" -/
  | refused
  /-- The caller is inside a setup or a construction of its own, which is invalidated: `None`. -/
  | recursive
  /-- `_close_after_construction_wait` -/
  | waits
  | tearsDown
deriving DecidableEq

namespace State

/-- `_invalidate_component_constructions_locked` -/
def invalidateComponentConstructions (s : State) : State :=
  if s.componentConstructions = [] then s
  else { s with
    componentGeneration := s.componentGeneration + 1
    componentConstructions := s.componentConstructions.map fun c ↦ { c with invalidated := true } }

/-- `_close_after_construction_wait` -/
def closeAfterConstructionWait (s : State) (waiters : List Waiter) (thread : Thread) : State :=
  if s.closeWaitOperation.isSome then s
  else { s with
    closeInProgress := true
    closeOwnerThread := some thread
    closeWaitOperation := some s.gates.length
    closeWaitOwnerThread := some thread
    closeDeferred := some (.wait s.gates.length)
    gates := s.gates ++ [{
      waiters, waiting := true, operations := s.asyncComponentOperations
      remaining := s.asyncComponentOperations.length + 1, stage := .pending }] }

/-- The teardown is entered, from `finish_wait` or from outside. -/
def enterTeardown (s : State) (gate : Option ℕ) (thread : Thread) : State :=
  { s with
    closeInProgress := true
    closeOwnerThread := some thread
    teardown := some { thread, gate, phases := 7, suspended := false, returned := false } }

/-- Whether a call finds the mixin free, or takes the reservation of a waiting close over. -/
def admits (s : State) (thread : Thread) : Bool :=
  !s.closeInProgress || s.closeWaitFinishing && s.closeOwnerThread == some thread

def transfer (s : State) : State :=
  if s.closeInProgress then
    { s with closeWaitFinishing := false, closeInProgress := false, closeOwnerThread := none }
  else s

/-- What an admitted call has to do, by what is in flight. -/
def outcome (s : State) (thread : Thread) : Outcome :=
  match s.setupAttempt with
  | some attempt => if attempt.ownerThread = thread then .recursive else .waits
  | none =>
    if s.componentConstructions = [] ∧ s.asyncComponentOperations = [] then .tearsDown
    else if s.componentConstructions.any (·.ownerThread == thread) then .recursive
    else .waits

/-- The events that a waiting call waits for. -/
def waiters (s : State) : List Waiter :=
  match s.setupAttempt with
  | some attempt => [.setup attempt.number]
  | none => s.componentConstructions.map fun c ↦ .construction c.number

def invalidateSetup (s : State) : State :=
  { s with setupAttempt := s.setupAttempt.map fun attempt ↦ { attempt with invalidated := true } }

/-- An admitted call. The constructions are left alone when it is the setup that calls. -/
def reserve (s : State) (gate : Option ℕ) (thread : Thread) : State × Outcome :=
  let t := s.invalidateSetup
  match s.outcome thread with
  | .tearsDown => (t.enterTeardown gate thread, .tearsDown)
  | .waits =>
    (t.invalidateComponentConstructions.closeAfterConstructionWait t.waiters thread, .waits)
  | o => (if s.setupAttempt.isSome then t else t.invalidateComponentConstructions, o)

/-- `close_backend`, up to where it returns or begins to tear down. -/
def closeBackend (s : State) (gate : Option ℕ) (thread : Thread) : State × Outcome :=
  if s.admits thread then s.transfer.reserve gate thread
  else if s.closeOwnerThread = some thread then (s, .shared)
  else if s.closeDeferred.isSome then (s, .shared)
  else (s, .refused)

end State

/-! ## The machine -/

/-- How a pass of the teardown ends that has not been suspended. -/
inductive Ended
  | none
  | raised
  /-- A `Deferred` that has already settled, and is left behind in `_close_deferred`. -/
  | settled
  /-- A composite that has already settled. -/
  | composite
deriving DecidableEq

def Ended.isDeferred : Ended → Bool
  | none | raised => false
  | settled | composite => true

inductive Label
  /-- `setup_backend` publishes its attempt. -/
  | setup (thread : Thread)
  | finishSetup
  /-- `_reserve_component_construction` -/
  | construct (kind : Kind) (thread : Thread)
  /-- `_finish_component_construction` -/
  | finishConstruction (index : ℕ)
  /-- `_track_async_operation_locked`, from `get_queue_async` or `_on_spider_opened` -/
  | track
  /-- A tracked operation settles: `clear`, then `settle_gate` where a gate waits for it. -/
  | complete (operation : ℕ)
  /-- The worker of a gate has waited for its events. -/
  | waited (gate : ℕ)
  /-- The first section of `finish_wait`. -/
  | finishWait (gate : ℕ)
  /-- `finish_wait` calls `close_backend`. -/
  | enter (gate : ℕ)
  /-- The `finally` of `finish_wait`. -/
  | leave (gate : ℕ)
  /-- `close_backend` is called, whether or not from inside a setup, a construction or a teardown. -/
  | close (thread : Thread)
  /-- A phase of the teardown is over, or there is nothing to do in it. -/
  | pass
  /-- A phase of the teardown is out. -/
  | suspend
  /-- The phase that is out settles. -/
  | settle
  | finish (ended : Ended)
deriving DecidableEq

/-- Between the sections of `finish_wait`, where the reactor thread calls nothing else. -/
def Stage.isOwn : Stage → Bool
  | fired | finishing | leaving _ => true
  | pending | entered | left => false

/-- The reactor is in `finish_wait`. -/
def Stage.isBusy : Stage → Bool
  | fired | finishing | entered | leaving _ => true
  | pending | left => false

/-- `finish_wait` has not called `close_backend` yet. -/
def Stage.isAhead : Stage → Bool
  | pending | fired | finishing => true
  | entered | leaving _ | left => false

namespace State

/-- The thread can run code of its own. -/
def isFree (s : State) (thread : Thread) : Bool :=
  !(thread == .reactor && s.gates.any (·.stage.isOwn))

/-- The reactor is between two callbacks. -/
def isIdle (s : State) : Bool :=
  !s.gates.any (·.stage.isBusy) && s.teardown.all fun t ↦ t.suspended || t.thread != .reactor

def isSet (s : State) : Waiter → Bool
  | .setup number => s.setupAttempt.all (·.number != number)
  | .construction number => s.componentConstructions.all (·.number != number)

def setGate (s : State) (i : ℕ) (g : Gate) : State := { s with gates := s.gates.set i g }

end State

/-- `settle_gate` -/
def Gate.settle (g : Gate) : Gate :=
  { g with
    remaining := g.remaining - 1
    stage := if g.remaining = 1 then .fired else g.stage }

/-- An operation that the gate may be attached to settles. -/
def Gate.complete (operation : ℕ) (g : Gate) : Gate :=
  if operation ∈ g.operations then
    ({ g with operations := g.operations.erase operation } : Gate).settle
  else g

namespace State

/-- `setup_backend` waits for the attempt of another thread, and refuses its own. -/
def setup (s : State) (thread : Thread) : Option State :=
  if s.isFree thread ∧ s.closeInProgress = false ∧ s.setupAttempt = none then
    some { s with
      setupAttempt := some { number := s.made, ownerThread := thread, invalidated := false }
      made := s.made + 1 }
  else none

def finishSetup (s : State) : Option State :=
  if s.setupAttempt.isSome then some { s with setupAttempt := none } else none

def construct (s : State) (kind : Kind) (thread : Thread) : Option State :=
  if s.isFree thread ∧ s.closeInProgress = false ∧
      s.componentConstructions.all (·.kind != kind) then
    some { s with
      componentConstructions := s.componentConstructions ++
        [{ number := s.made, kind, ownerThread := thread, invalidated := false }]
      made := s.made + 1 }
  else none

def finishConstruction (s : State) (i : ℕ) : Option State :=
  if i < s.componentConstructions.length then
    some { s with componentConstructions := s.componentConstructions.eraseIdx i }
  else none

def track (s : State) : State :=
  { s with
    asyncComponentOperations := s.asyncComponentOperations ++ [s.made]
    made := s.made + 1 }

def complete (s : State) (operation : ℕ) : Option State :=
  if s.isIdle ∧ operation ∈ s.asyncComponentOperations then
    some { s with
      asyncComponentOperations := s.asyncComponentOperations.erase operation
      gates := s.gates.map (Gate.complete operation) }
  else none

def waited (s : State) (i : ℕ) : Option State := do
  let g ← s.gates[i]?
  if s.isIdle ∧ g.stage = .pending ∧ g.waiting ∧ g.waiters.all s.isSet then
    some (s.setGate i ({ g with waiting := false } : Gate).settle)
  else none

def finishWait (s : State) (i : ℕ) : Option State := do
  let g ← s.gates[i]?
  if g.stage = .fired then
    let t := s.setGate i { g with stage := .finishing }
    some (if s.closeWaitOperation = some i then
        { t with closeWaitOperation := none, closeWaitFinishing := true }
      else t)
  else none

/-- Where `finish_wait` is after its call of `close_backend`. -/
def stageAfter (s : State) : Outcome → Stage
  | .shared => .leaving s.closeDeferred.isSome
  | .refused | .recursive => .leaving false
  | .waits => .leaving true
  | .tearsDown => .entered

def enter (s : State) (i : ℕ) : Option State := do
  let g ← s.gates[i]?
  if g.stage = .finishing then
    let (t, outcome) := s.closeBackend (some i) .reactor
    some (t.setGate i { g with stage := s.stageAfter outcome })
  else none

def leave (s : State) (i : ℕ) : Option State := do
  let g ← s.gates[i]?
  match g.stage with
  | .leaving deferred =>
    some { s.setGate i { g with stage := .left } with
      closeWaitFinishing := false
      closeWaitOwnerThread := none
      closeDeferred := if deferred && s.closeInProgress then some (.wait i) else s.closeDeferred }
  | _ => none

/-- `close_backend` returns to the `finish_wait` that called it. -/
def returnTo (gates : List Gate) (gate : Option ℕ) (deferred : Bool) : List Gate :=
  match gate with
  | some i => gates.modify i ({ · with stage := .leaving deferred })
  | none => gates

/-- A phase is out: the first time this happens, `close_backend` returns. -/
def suspend (s : State) (t : Teardown) : State :=
  let next := { s with
    teardown := some { t with phases := t.phases - 1, suspended := true, returned := true } }
  if t.returned then next
  else { next with
    closeDeferred := some .teardown
    gates := returnTo s.gates t.gate true }

/-- `reset_close_state` -/
def resetCloseState (s : State) : State :=
  { s with
    closeInProgress := false, closeOwnerThread := none, closeDeferred := none, teardown := none }

def finish (s : State) (t : Teardown) (ended : Ended) : State :=
  if t.returned then s.resetCloseState
  else { s.resetCloseState with
    closeDeferred := if ended = Ended.settled then some .teardown else none
    gates := returnTo s.gates t.gate ended.isDeferred }

def step (s : State) : Label → Option State
  | .setup thread => s.setup thread
  | .finishSetup => s.finishSetup
  | .construct kind thread => s.construct kind thread
  | .finishConstruction i => s.finishConstruction i
  | .track => some s.track
  | .complete operation => s.complete operation
  | .waited i => s.waited i
  | .finishWait i => s.finishWait i
  | .enter i => s.enter i
  | .leave i => s.leave i
  | .close thread => if s.isFree thread then some (s.closeBackend none thread).1 else none
  | .pass => do
    let t ← s.teardown
    if t.suspended = false ∧ t.phases ≠ 0 then
      some { s with teardown := some { t with phases := t.phases - 1 } }
    else none
  | .suspend => do
    let t ← s.teardown
    if t.suspended = false ∧ t.phases ≠ 0 then some (s.suspend t) else none
  | .settle => do
    let t ← s.teardown
    if t.suspended ∧ s.isIdle then
      some { s with teardown := some { t with suspended := false, thread := .reactor } }
    else none
  | .finish ended => do
    let t ← s.teardown
    if t.suspended = false ∧ t.phases = 0 then some (s.finish t ended) else none

end State

def machine : Machine State Label where
  init := .initial
  step := State.step

/-! ## Who carries the reservation -/

namespace State

/-- A thread is inside `close_backend`, or in the callback that goes on with the teardown. -/
def Inside (s : State) : Prop := ∃ t, s.teardown = some t ∧ t.suspended = false

/-- A phase of the teardown is out, and its completion goes on with the teardown. -/
def Completing (s : State) : Prop := ∃ t, s.teardown = some t ∧ t.suspended = true

/-- There is a `finish_wait` to come, and the thread that will run it owns the reservation. -/
def HandsOver (s : State) : Prop :=
  s.closeOwnerThread = some .reactor ∧ ∃ g ∈ s.gates, g.stage.isAhead = true

/-- No setup, construction or tracked operation is in flight. -/
def Quiet (s : State) : Prop :=
  s.setupAttempt = none ∧ s.componentConstructions = [] ∧ s.asyncComponentOperations = []

/-- A call of `close_backend` on this thread would have to wait. -/
def mustWait (s : State) (thread : Thread) : Bool := s.admits thread && s.outcome thread == .waits

end State

/-- A close that has to wait is called on the reactor thread. -/
def WaitsOnReactor (s : State) : Label → Prop
  | .close thread => s.mustWait thread = true → thread = .reactor
  | _ => True

instance : ∀ s, DecidablePred (WaitsOnReactor s)
  | s, .close thread => inferInstanceAs (Decidable (s.mustWait thread = true → thread = .reactor))
  | _, .setup _ | _, .finishSetup | _, .construct .. | _, .finishConstruction _ | _, .track
  | _, .complete _ | _, .waited _ | _, .finishWait _ | _, .enter _ | _, .leave _ | _, .pass
  | _, .suspend | _, .settle | _, .finish _ => isTrue trivial

/-- What goes on without a new call: completions, and the callbacks and passes that are under way. -/
def Label.IsCompletion : Label → Prop
  | .setup _ | .construct .. | .track | .close _ => False
  | _ => True

/-! ## The invariant -/

/-- `_close_wait_operation` is the gate. -/
def Stage.isAwaited : Stage → Bool
  | pending | fired => true
  | finishing | entered | leaving _ | left => false

def Stage.isFinishing : Stage → Bool
  | finishing => true
  | pending | fired | entered | leaving _ | left => false

def Stage.isEntered : Stage → Bool
  | entered => true
  | pending | fired | finishing | leaving _ | left => false

theorem Stage.isEntered_iff {a : Stage} : a.isEntered = true ↔ a = .entered := by
  cases a <;> simp [isEntered]

/-- The gate counts what it waits for. -/
structure Gate.Sound (operations : List ℕ) (g : Gate) : Prop where
  count : g.stage = .pending → g.remaining = g.operations.length + g.waiting.toNat ∧ 0 < g.remaining
  settled : g.stage ≠ .pending → g.operations = []
  tracked : List.Subperm g.operations operations

/-- The teardown runs inside a `finish_wait`. -/
def Teardown.isNested (t : Teardown) : Bool := t.gate.isSome && !t.returned

structure State.Sound (s : State) : Prop where
  carried : s.gates.countP (·.stage.isAhead) + s.teardown.isSome.toNat = s.closeInProgress.toNat
  owner : 0 < s.gates.countP (·.stage.isAhead) → s.closeOwnerThread = some .reactor
  busy : s.gates.countP (·.stage.isBusy) ≤ 1
  awaited : s.gates.countP (·.stage.isAwaited) = s.closeWaitOperation.isSome.toNat
  operation : ∀ i, s.closeWaitOperation = some i →
    ∃ g, s.gates[i]? = some g ∧ g.stage.isAwaited = true
  finishing : s.gates.countP (·.stage.isFinishing) = s.closeWaitFinishing.toNat
  nested : s.gates.countP (·.stage.isEntered) = (s.teardown.any Teardown.isNested).toNat
  entered : ∀ t i, s.teardown = some t → t.gate = some i → t.returned = false →
    ∃ g, s.gates[i]? = some g ∧ g.stage = .entered
  gate : ∀ g ∈ s.gates, g.Sound s.asyncComponentOperations
  returned : ∀ t, s.teardown = some t → t.suspended = true → t.returned = true

/-- Somebody carries the reservation. -/
theorem State.Sound.carries {s : State} (h : s.Sound) (hclose : s.closeInProgress = true) :
    s.Inside ∨ s.Completing ∨ s.HandsOver := by
  have hcarried := h.carried
  rw [hclose, Bool.toNat_true] at hcarried
  cases ht : s.teardown with
  | some t =>
    cases hs : t.suspended with
    | false => exact .inl ⟨t, ht, hs⟩
    | true => exact .inr (.inl ⟨t, ht, hs⟩)
  | none =>
    have hahead : 0 < s.gates.countP (·.stage.isAhead) := by
      rw [ht, Option.isSome_none, Bool.toNat_false] at hcarried
      omega
    exact .inr (.inr ⟨h.owner hahead, List.countP_pos_iff.1 hahead⟩)

theorem State.sound_initial : State.initial.Sound where
  carried := rfl
  owner h := absurd h (by decide)
  busy := by decide
  awaited := rfl
  operation := by simp [State.initial]
  finishing := rfl
  nested := rfl
  entered := by simp [State.initial]
  gate := by simp [State.initial]
  returned := by simp [State.initial]

/-! ### What is in flight -/

namespace State.Sound

variable {s t : State}

/-- What the reservation does not depend on. -/
theorem inFlight (h : s.Sound) (attempt : Option SetupAttempt) (constructions : List Construction)
    (generation made : ℕ) (closeDeferred : Option Public) (waitOwner : Option Thread) :
    State.Sound { s with
      setupAttempt := attempt, componentConstructions := constructions
      componentGeneration := generation, made, closeDeferred
      closeWaitOwnerThread := waitOwner } :=
  ⟨h.carried, h.owner, h.busy, h.awaited, h.operation, h.finishing, h.nested, h.entered, h.gate,
    h.returned⟩

theorem setup (h : s.Sound) {thread : Thread} (ht : s.setup thread = some t) : t.Sound := by
  unfold State.setup at ht
  split at ht
  · cases ht
    exact h.inFlight _ _ _ _ _ _
  · simp at ht

theorem finishSetup (h : s.Sound) (ht : s.finishSetup = some t) : t.Sound := by
  unfold State.finishSetup at ht
  split at ht
  · cases ht
    exact h.inFlight _ _ _ _ _ _
  · simp at ht

theorem construct (h : s.Sound) {kind : Kind} {thread : Thread}
    (ht : s.construct kind thread = some t) : t.Sound := by
  unfold State.construct at ht
  split at ht
  · cases ht
    exact h.inFlight _ _ _ _ _ _
  · simp at ht

theorem finishConstruction (h : s.Sound) {i : ℕ} (ht : s.finishConstruction i = some t) :
    t.Sound := by
  unfold State.finishConstruction at ht
  split at ht
  · cases ht
    exact h.inFlight _ _ _ _ _ _
  · simp at ht

theorem track (h : s.Sound) : s.track.Sound where
  carried := h.carried
  owner := h.owner
  busy := h.busy
  awaited := h.awaited
  operation := h.operation
  finishing := h.finishing
  nested := h.nested
  entered := h.entered
  gate g hg := by
    obtain ⟨hcount, hsettled, htracked⟩ := h.gate g hg
    exact ⟨hcount, hsettled, htracked.trans (List.sublist_append_left _ _).subperm⟩
  returned := h.returned

/-- An operation settles: the gate that waits for it goes on waiting or fires. -/
theorem gateComplete {operations : List ℕ} {g : Gate} (h : g.Sound operations) (o : ℕ) :
    (g.complete o).Sound (operations.erase o) ∧
      ((g.complete o).stage = g.stage ∨ g.stage = .pending ∧ (g.complete o).stage = .fired) := by
  by_cases ho : o ∈ g.operations
  · have hpending : g.stage = .pending := by
      by_contra hstage
      rw [h.settled hstage] at ho
      simp at ho
    obtain ⟨hremaining, hpos⟩ := h.count hpending
    have hlength := List.length_erase_of_mem ho
    have hne : 0 < g.operations.length := List.length_pos_of_mem ho
    rw [Gate.complete, if_pos ho, Gate.settle]
    by_cases hone : g.remaining = 1
    · refine ⟨⟨?_, ?_, h.tracked.erase o⟩, .inr ⟨hpending, by simp [hone]⟩⟩
      · simp [hone]
      · intro _
        exact List.length_eq_zero_iff.1 (by simp only [hlength]; omega)
    · refine ⟨⟨?_, ?_, h.tracked.erase o⟩, .inl (by simp [hone])⟩
      · intro _
        simp only [hlength]
        omega
      · simp [hone, hpending]
  · rw [Gate.complete, if_neg ho]
    have htracked := h.tracked.erase o
    rw [List.erase_of_not_mem ho] at htracked
    exact ⟨⟨h.count, h.settled, htracked⟩, .inl rfl⟩

end State.Sound

namespace State.Sound

variable {s t : State}

/-- The gates after an operation has settled, as far as a predicate does not tell a gate that has just
fired from one that is pending. -/
theorem countP_complete (h : s.Sound) (o : ℕ) {p : Stage → Bool} (hp : p .pending = p .fired) :
    (s.gates.map (Gate.complete o)).countP (p ·.stage) = s.gates.countP (p ·.stage) := by
  rw [List.countP_map]
  refine List.countP_congr fun g hg ↦ ?_
  obtain ⟨-, hstage | ⟨hpending, hfired⟩⟩ := gateComplete (h.gate g hg) o
  · rw [Function.comp_apply, hstage]
  · rw [Function.comp_apply, hfired, hpending, hp]

theorem exists_complete (h : s.Sound) (o : ℕ) {p : Stage → Bool} (hp : p .pending = p .fired)
    {i : ℕ} (hi : ∃ g, s.gates[i]? = some g ∧ p g.stage = true) :
    ∃ g, (s.gates.map (Gate.complete o))[i]? = some g ∧ p g.stage = true := by
  obtain ⟨g, hg, hpg⟩ := hi
  refine ⟨g.complete o, by rw [List.getElem?_map, hg]; rfl, ?_⟩
  obtain ⟨-, hstage | ⟨hpending, hfired⟩⟩ := gateComplete (h.gate g (List.mem_of_getElem? hg)) o
  · rwa [hstage]
  · rwa [hfired, ← hp, ← hpending]

theorem countP_busy_of_isIdle (hidle : s.isIdle = true) :
    s.gates.countP (·.stage.isBusy) = 0 := by
  rw [State.isIdle, Bool.and_eq_true, Bool.not_eq_true'] at hidle
  rw [List.countP_eq_zero]
  intro g hg hbusy
  have := List.any_eq_false.1 hidle.1 g hg
  exact this hbusy

theorem complete (h : s.Sound) {o : ℕ} (ht : s.complete o = some t) : t.Sound := by
  unfold State.complete at ht
  split at ht
  · rename_i hidle
    cases ht
    have hquiet := countP_busy_of_isIdle hidle.1
    refine ⟨?_, ?_, ?_, ?_, ?_, ?_, ?_, ?_, ?_, h.returned⟩
    · rw [h.countP_complete o (p := Stage.isAhead) rfl]
      exact h.carried
    · rw [h.countP_complete o (p := Stage.isAhead) rfl]
      exact h.owner
    · -- The reactor was idle, so that a busy gate has just fired, and one gate at most is awaited.
      have hle : (s.gates.map (Gate.complete o)).countP (·.stage.isBusy) ≤
          (s.gates.map (Gate.complete o)).countP (·.stage.isAwaited) := by
        refine List.countP_mono_left fun k hg' hbusy ↦ ?_
        obtain ⟨g, hg, rfl⟩ := List.mem_map.1 hg'
        obtain ⟨-, hstage | ⟨-, hfired⟩⟩ := gateComplete (h.gate g hg) o
        · rw [hstage] at hbusy
          exact absurd hbusy (List.countP_eq_zero.1 hquiet g hg)
        · rw [hfired]
          rfl
      have hawaited := h.countP_complete o (p := Stage.isAwaited) rfl
      have hone := Bool.toNat_le s.closeWaitOperation.isSome
      rw [hawaited, h.awaited] at hle
      exact hle.trans hone
    · rw [h.countP_complete o (p := Stage.isAwaited) rfl]
      exact h.awaited
    · intro i hi
      exact h.exists_complete o (p := Stage.isAwaited) rfl (h.operation i hi)
    · rw [h.countP_complete o (p := Stage.isFinishing) rfl]
      exact h.finishing
    · rw [h.countP_complete o (p := Stage.isEntered) rfl]
      exact h.nested
    · intro u i hu hgate hreturned
      obtain ⟨g, hg, hentered⟩ := h.entered u i hu hgate hreturned
      obtain ⟨k, hg', hentered'⟩ :=
        h.exists_complete o (p := Stage.isEntered) rfl ⟨g, hg, Stage.isEntered_iff.2 hentered⟩
      exact ⟨k, hg', Stage.isEntered_iff.1 hentered'⟩
    · intro k hg'
      obtain ⟨g, hg, rfl⟩ := List.mem_map.1 hg'
      exact (gateComplete (h.gate g hg) o).1
  · simp at ht

/-! ### The wait -/

variable {i : ℕ} {g k : Gate}

/-- One gate changes its stage. -/
theorem countP_setGate (hg : s.gates[i]? = some g) (p : Stage → Bool) :
    (s.gates.set i k).countP (p ·.stage) + (p g.stage).toNat =
      s.gates.countP (p ·.stage) + (p k.stage).toNat :=
  List.countP_set_add (fun g : Gate ↦ p g.stage) hg

theorem countP_setGate_of_eq (hg : s.gates[i]? = some g) {p : Stage → Bool}
    (hp : p k.stage = p g.stage) :
    (s.gates.set i k).countP (p ·.stage) = s.gates.countP (p ·.stage) := by
  have := countP_setGate hg p (k := k)
  rw [hp] at this
  exact Nat.add_right_cancel this

theorem countP_setGate_joins (hg : s.gates[i]? = some g) {p : Stage → Bool}
    (hold : p g.stage = false) (hnew : p k.stage = true) :
    (s.gates.set i k).countP (p ·.stage) = s.gates.countP (p ·.stage) + 1 := by
  have := countP_setGate hg p (k := k)
  rwa [hold, hnew] at this

theorem countP_setGate_leaves (hg : s.gates[i]? = some g) {p : Stage → Bool}
    (hold : p g.stage = true) (hnew : p k.stage = false) :
    (s.gates.set i k).countP (p ·.stage) + 1 = s.gates.countP (p ·.stage) := by
  have := countP_setGate hg p (k := k)
  rwa [hold, hnew] at this

theorem exists_setGate (hg : s.gates[i]? = some g) {p : Stage → Bool} {j : ℕ}
    (hp : p g.stage = true → p k.stage = true)
    (h : ∃ x, s.gates[j]? = some x ∧ p x.stage = true) :
    ∃ x, (s.gates.set i k)[j]? = some x ∧ p x.stage = true := by
  obtain ⟨x, hx, hpx⟩ := h
  by_cases hij : i = j
  · subst hij
    obtain rfl := Option.some.inj (hg.symm.trans hx)
    exact ⟨k, List.getElem?_set_self (List.getElem?_eq_some_iff.1 hg).1, hp hpx⟩
  · exact ⟨x, (List.getElem?_set_ne hij).trans hx, hpx⟩

/-- A gate changes within its part of the protocol. -/
theorem setGate (h : s.Sound) (hg : s.gates[i]? = some g)
    (hsound : k.Sound s.asyncComponentOperations)
    (hahead : k.stage.isAhead = g.stage.isAhead)
    (hawaited : k.stage.isAwaited = g.stage.isAwaited)
    (hfinishing : k.stage.isFinishing = g.stage.isFinishing)
    (hentered : k.stage.isEntered = g.stage.isEntered)
    (hbusy : (s.gates.set i k).countP (·.stage.isBusy) ≤ 1) : (s.setGate i k).Sound := by
  have hcount : ∀ p : Stage → Bool, p k.stage = p g.stage →
      (s.gates.set i k).countP (p ·.stage) = s.gates.countP (p ·.stage) :=
    fun p hp ↦ countP_setGate_of_eq hg hp
  refine ⟨?_, ?_, hbusy, ?_, ?_, ?_, ?_, ?_, List.forall_mem_set h.gate hsound, h.returned⟩
  · exact (congrArg (· + _) (hcount _ hahead)).trans h.carried
  · intro hpos
    exact h.owner (hpos.trans_eq (hcount _ hahead))
  · exact (hcount _ hawaited).trans h.awaited
  · exact fun j hj ↦ exists_setGate hg hawaited.trans (h.operation j hj)
  · exact (hcount _ hfinishing).trans h.finishing
  · exact (hcount _ hentered).trans h.nested
  · intro u j hu hgate hreturned
    obtain ⟨x, hx, hx'⟩ := h.entered u j hu hgate hreturned
    obtain ⟨y, hy, hy'⟩ := exists_setGate hg hentered.trans ⟨x, hx, Stage.isEntered_iff.2 hx'⟩
    exact ⟨y, hy, Stage.isEntered_iff.1 hy'⟩

theorem waited (h : s.Sound) (ht : s.waited i = some t) : t.Sound := by
  unfold State.waited at ht
  obtain ⟨g, hg, ht⟩ := Option.bind_eq_some_iff.1 ht
  split at ht
  · rename_i hif
    obtain ⟨hidle, hpending, hwaiting, -⟩ := hif
    cases ht
    obtain ⟨hcount, hsettled, htracked⟩ := h.gate g (List.mem_of_getElem? hg)
    obtain ⟨hremaining, hpos⟩ := hcount hpending
    rw [hwaiting, Bool.toNat_true] at hremaining
    have hquiet := countP_busy_of_isIdle hidle
    have hbusy := countP_setGate hg Stage.isBusy
      (k := ({ g with waiting := false } : Gate).settle)
    have hle := Bool.toNat_le ({ g with waiting := false } : Gate).settle.stage.isBusy
    have hset : (s.gates.set i ({ g with waiting := false } : Gate).settle).countP
        (·.stage.isBusy) ≤ 1 := by omega
    by_cases hone : g.remaining = 1
    · refine h.setGate hg ⟨?_, ?_, htracked⟩ ?_ ?_ ?_ ?_ hset
      · simp [Gate.settle, hone]
      · intro _
        exact List.length_eq_zero_iff.1 (by simp only [Gate.settle]; omega)
      all_goals simp only [Gate.settle, hone, if_true, hpending]; rfl
    · refine h.setGate hg ⟨?_, ?_, htracked⟩ ?_ ?_ ?_ ?_ hset
      · intro _
        simp only [Gate.settle, Bool.toNat_false]
        omega
      · simp [Gate.settle, hone, hpending]
      all_goals simp only [Gate.settle, hone, if_false]
  · simp at ht

/-- Only one gate at a time is ahead. -/
theorem countP_ahead_le (h : s.Sound) : s.gates.countP (·.stage.isAhead) ≤ 1 := by
  have := h.carried
  have := Bool.toNat_le s.closeInProgress
  omega

theorem countP_ahead (l : List Gate) : l.countP (·.stage.isAhead) =
    l.countP (·.stage.isAwaited) + l.countP (·.stage.isFinishing) := by
  induction l with
  | nil => rfl
  | cons g l ih =>
    simp only [List.countP_cons, ih]
    cases g.stage <;> simp [Stage.isAhead, Stage.isAwaited, Stage.isFinishing] <;> omega

theorem operation_eq (h : s.Sound) (hg : s.gates[i]? = some g)
    (hawaited : g.stage.isAwaited = true) : s.closeWaitOperation = some i := by
  have hle := List.toNat_le_countP (fun g : Gate ↦ g.stage.isAwaited) hg
  rw [h.awaited, hawaited] at hle
  cases hop : s.closeWaitOperation with
  | none =>
    rw [hop] at hle
    simp at hle
  | some j =>
    obtain ⟨k, hg', hawaited'⟩ := h.operation j hop
    have hahead : ∀ st : Stage, st.isAwaited = true → st.isAhead = true := by
      rintro (_ | _ | _ | _ | _ | _) <;> simp [Stage.isAwaited, Stage.isAhead]
    rw [List.eq_of_countP_le_one (fun g : Gate ↦ g.stage.isAhead) h.countP_ahead_le hg hg'
      (hahead _ hawaited) (hahead _ hawaited')]

theorem finishWait (h : s.Sound) (ht : s.finishWait i = some t) : t.Sound := by
  unfold State.finishWait at ht
  obtain ⟨g, hg, ht⟩ := Option.bind_eq_some_iff.1 ht
  split at ht
  · rename_i hfired
    have hop : s.closeWaitOperation = some i := h.operation_eq hg (by rw [hfired]; rfl)
    simp only [hop, if_true, Option.some.injEq] at ht
    subst ht
    have hstays : ∀ p : Stage → Bool, p .finishing = p .fired →
        (s.gates.set i { g with stage := .finishing }).countP (p ·.stage) =
          s.gates.countP (p ·.stage) :=
      fun p hp ↦ countP_setGate_of_eq hg (by rw [hfired]; exact hp)
    have hahead := hstays Stage.isAhead rfl
    have hbusy := hstays Stage.isBusy rfl
    have hentered := hstays Stage.isEntered rfl
    have hawaited := countP_setGate_leaves (k := { g with stage := .finishing }) hg
      (p := Stage.isAwaited) (by rw [hfired]; rfl) rfl
    have hfinishing := countP_setGate_joins (k := { g with stage := .finishing }) hg
      (p := Stage.isFinishing) (by rw [hfired]; rfl) rfl
    have hop' := h.awaited
    have hle := h.countP_ahead_le
    rw [countP_ahead] at hle
    rw [hop, Option.isSome_some, Bool.toNat_true] at hop'
    obtain ⟨-, hsettled, htracked⟩ := h.gate g (List.mem_of_getElem? hg)
    refine ⟨?_, ?_, ?_, ?_, ?_, ?_, ?_, ?_, ?_, h.returned⟩
    · exact (congrArg (· + _) hahead).trans h.carried
    · intro hpos
      exact h.owner (hpos.trans_eq hahead)
    · exact hbusy.trans_le h.busy
    · simp only [State.setGate, Option.isSome_none, Bool.toNat_false]
      omega
    · simp
    · simp only [State.setGate, Bool.toNat_true]
      omega
    · exact hentered.trans h.nested
    · intro u j hu hgate hreturned
      obtain ⟨x, hx, hx'⟩ := h.entered u j hu hgate hreturned
      obtain ⟨y, hy, hy'⟩ := exists_setGate (k := { g with stage := .finishing }) hg
        (p := Stage.isEntered) (by simp [hfired, Stage.isEntered]) ⟨x, hx, Stage.isEntered_iff.2 hx'⟩
      exact ⟨y, hy, Stage.isEntered_iff.1 hy'⟩
    · refine List.forall_mem_set h.gate ⟨by simp, fun _ ↦ ?_, htracked⟩
      exact hsettled (by simp [hfired])
  · simp at ht

end State.Sound

namespace State.Sound

variable {s t : State} {i : ℕ} {g k : Gate}

/-- Where the reactor is in another section of `finish_wait`, no gate is being handed over. -/
theorem not_finishing (h : s.Sound) (hg : s.gates[i]? = some g) (hbusy : g.stage.isBusy = true)
    (hother : g.stage.isFinishing = false) : s.closeWaitFinishing = false := by
  by_contra hne
  have hpos : 0 < s.gates.countP (·.stage.isFinishing) := by
    rw [h.finishing, Bool.not_eq_false] at *
    rw [hne]
    decide
  obtain ⟨x, hx, hfinishing⟩ := List.countP_pos_iff.1 hpos
  obtain ⟨j, hj⟩ := List.mem_iff_getElem?.1 hx
  have hxbusy : x.stage.isBusy = true := by
    revert hfinishing
    cases x.stage <;> simp [Stage.isFinishing, Stage.isBusy]
  obtain rfl := List.eq_of_countP_le_one (fun g : Gate ↦ g.stage.isBusy) h.busy hg hj hbusy hxbusy
  obtain rfl := Option.some.inj (hg.symm.trans hj)
  simp [hother] at hfinishing

theorem leave (h : s.Sound) (ht : s.leave i = some t) : t.Sound := by
  unfold State.leave at ht
  obtain ⟨g, hg, ht⟩ := Option.bind_eq_some_iff.1 ht
  cases hstage : g.stage with
  | leaving deferred =>
    simp only [hstage, Option.some.injEq] at ht
    subst ht
    have hfinishing := h.not_finishing hg (by rw [hstage]; rfl) (by rw [hstage]; rfl)
    obtain ⟨-, hsettled, htracked⟩ := h.gate g (List.mem_of_getElem? hg)
    have hbusy := countP_setGate_leaves (k := { g with stage := .left }) hg (p := Stage.isBusy)
      (by rw [hstage]; rfl) rfl
    have hset : (s.setGate i { g with stage := .left }).Sound := by
      refine h.setGate hg ⟨by simp, fun _ ↦ hsettled (by simp [hstage]), htracked⟩
        ?_ ?_ ?_ ?_ ?_
      · rw [hstage]; rfl
      · rw [hstage]; rfl
      · rw [hstage]; rfl
      · rw [hstage]; rfl
      · have := h.busy
        omega
    refine ⟨hset.carried, hset.owner, hset.busy, hset.awaited, hset.operation, ?_, hset.nested,
      hset.entered, hset.gate, hset.returned⟩
    exact hset.finishing.trans (congrArg Bool.toNat hfinishing)
  | pending | fired | finishing | entered | left => simp [hstage] at ht

/-! ### `close_backend` -/

/-- Nobody is at it while the mixin is free. -/
theorem of_free (h : s.Sound) (hfree : s.closeInProgress = false) :
    s.gates.countP (·.stage.isAhead) = 0 ∧ s.teardown = none ∧ s.closeWaitOperation = none := by
  have hcarried := h.carried
  rw [hfree, Bool.toNat_false] at hcarried
  have hteardown : s.teardown.isSome.toNat = 0 := by omega
  have hawaited := h.awaited
  have hle := countP_ahead s.gates
  have hoperation : s.closeWaitOperation.isSome.toNat = 0 := by omega
  refine ⟨by omega, ?_, ?_⟩
  · cases hs : s.teardown with
    | none => rfl
    | some t => simp [hs] at hteardown
  · cases hs : s.closeWaitOperation with
    | none => rfl
    | some t => simp [hs] at hoperation

theorem invalidateComponentConstructions (h : s.Sound) :
    s.invalidateComponentConstructions.Sound := by
  unfold State.invalidateComponentConstructions
  split
  · exact h
  · exact h.inFlight _ _ _ _ _ _

theorem invalidateSetup (h : s.Sound) : s.invalidateSetup.Sound := h.inFlight _ _ _ _ _ _

/-- A gate is built for the reactor thread. -/
theorem closeAfterConstructionWait (h : s.Sound) (hfree : s.closeInProgress = false)
    (waiters : List Waiter) : (s.closeAfterConstructionWait waiters .reactor).Sound := by
  obtain ⟨hahead, hteardown, hoperation⟩ := h.of_free hfree
  have hawaited := h.awaited
  rw [hoperation, Option.isSome_none, Bool.toNat_false] at hawaited
  rw [State.closeAfterConstructionWait, hoperation, Option.isSome_none,
    if_neg Bool.false_ne_true]
  have hconcat : ∀ (p : Stage → Bool) (x : Gate),
      (s.gates ++ [x]).countP (p ·.stage) = s.gates.countP (p ·.stage) + (p x.stage).toNat :=
    fun p x ↦ List.countP_concat (fun g : Gate ↦ p g.stage) _ _
  refine ⟨?_, fun _ ↦ rfl, ?_, ?_, ?_, ?_, ?_, ?_, ?_, ?_⟩
  · rw [hconcat Stage.isAhead, hahead, hteardown]
    rfl
  · exact (hconcat Stage.isBusy _).trans_le h.busy
  · rw [hconcat Stage.isAwaited, hawaited]
    rfl
  · intro j hj
    obtain rfl := Option.some.inj hj
    exact ⟨_, List.getElem?_concat_length, rfl⟩
  · exact (hconcat Stage.isFinishing _).trans h.finishing
  · exact (hconcat Stage.isEntered _).trans h.nested
  · simp [hteardown]
  · intro x hx
    rcases List.mem_append.1 hx with hx | hx
    · exact h.gate x hx
    · obtain rfl := List.mem_singleton.1 hx
      exact ⟨fun _ ↦ ⟨rfl, Nat.succ_pos _⟩, fun hne ↦ absurd rfl hne, List.Subperm.refl _⟩
  · simp [hteardown]

/-- The teardown is entered by a call from outside. -/
theorem enterTeardown (h : s.Sound) (hfree : s.closeInProgress = false) (thread : Thread) :
    (s.enterTeardown none thread).Sound := by
  obtain ⟨hahead, hteardown, hoperation⟩ := h.of_free hfree
  have hnested := h.nested
  rw [hteardown, Option.any_none, Bool.toNat_false] at hnested
  refine ⟨?_, ?_, h.busy, h.awaited, h.operation, h.finishing, ?_, ?_, h.gate, ?_⟩
  · simp [State.enterTeardown, hahead]
  · intro hpos
    exact absurd hahead hpos.ne'
  · exact hnested
  · intro t i ht hgate
    obtain rfl := Option.some.inj ht
    simp at hgate
  · intro t ht hsuspended
    obtain rfl := Option.some.inj ht
    simp at hsuspended

theorem reserve (h : s.Sound) (hfree : s.closeInProgress = false) {thread : Thread}
    (hwaits : s.outcome thread = .waits → thread = .reactor) :
    (s.reserve none thread).1.Sound := by
  have hset := h.invalidateSetup
  unfold State.reserve
  cases ho : s.outcome thread with
  | tearsDown => exact hset.enterTeardown hfree thread
  | waits =>
    obtain rfl := hwaits ho
    refine hset.invalidateComponentConstructions.closeAfterConstructionWait ?_ _
    unfold State.invalidateComponentConstructions
    split <;> exact hfree
  | shared | refused | recursive =>
    dsimp only
    split
    · exact hset
    · exact hset.invalidateComponentConstructions

theorem close (h : s.Sound) {thread : Thread} (hwaits : s.mustWait thread = true → thread = .reactor)
    (hthread : s.isFree thread = true) : (s.closeBackend none thread).1.Sound := by
  unfold State.closeBackend
  by_cases hadmits : s.admits thread = true
  · rw [if_pos hadmits]
    cases hclose : s.closeInProgress with
    | false =>
      rw [State.transfer, hclose, if_neg Bool.false_ne_true]
      refine h.reserve hclose fun ho ↦ hwaits ?_
      simp [State.mustWait, hadmits, ho]
    | true =>
      -- A gate that is being handed over keeps the reactor thread to itself.
      exfalso
      simp only [State.admits, hclose, Bool.not_true, Bool.false_or, Bool.and_eq_true,
        beq_iff_eq] at hadmits
      obtain ⟨hfinishing, howner⟩ := hadmits
      have hcount := h.finishing
      rw [hfinishing, Bool.toNat_true] at hcount
      have hahead := countP_ahead s.gates
      have hreactor := h.owner (by omega)
      rw [howner, Option.some.injEq] at hreactor
      obtain ⟨x, hx, hxf⟩ := List.countP_pos_iff.1 (by omega : 0 < s.gates.countP (·.stage.isFinishing))
      have hown : x.stage.isOwn = true := by
        revert hxf
        cases x.stage <;> simp [Stage.isFinishing, Stage.isOwn]
      simp only [State.isFree, hreactor, beq_self_eq_true, Bool.true_and, Bool.not_eq_true',
        List.any_eq_false] at hthread
      exact hthread x hx hown
  · rw [if_neg hadmits]
    split
    · exact h
    · split <;> exact h

end State.Sound

namespace State.Sound

variable {s t : State} {i : ℕ} {g k : Gate}

/-- The gate that is being handed over is the only one to carry the reservation, and it is admitted. -/
theorem of_finishing (h : s.Sound) (hg : s.gates[i]? = some g) (hstage : g.stage = .finishing) :
    s.admits .reactor = true ∧ s.closeInProgress = true ∧ s.teardown = none ∧
      s.closeWaitOperation = none ∧ s.gates.countP (·.stage.isAhead) = 1 ∧
      s.gates.countP (·.stage.isFinishing) = 1 := by
  have hpos := List.toNat_le_countP (fun g : Gate ↦ g.stage.isFinishing) hg
  have hone : g.stage.isFinishing.toNat = 1 := by rw [hstage]; rfl
  have hahead := countP_ahead s.gates
  have hle := h.countP_ahead_le
  have hcarried := h.carried
  have hclose := Bool.toNat_le s.closeInProgress
  have hfinishing := h.finishing
  have hawaited := h.awaited
  have hcloses : s.closeInProgress.toNat = 1 := by omega
  have hfinishes : s.closeWaitFinishing.toNat = 1 := by omega
  have hnone : s.teardown.isSome.toNat = 0 := by omega
  have hnone' : s.closeWaitOperation.isSome.toNat = 0 := by omega
  rw [Bool.toNat_eq_one] at hcloses hfinishes
  rw [Bool.toNat_eq_zero, Option.isSome_eq_false_iff, Option.isNone_iff_eq_none] at hnone hnone'
  refine ⟨?_, hcloses, hnone, hnone', by omega, by omega⟩
  rw [State.admits, hcloses, hfinishes, h.owner (by omega)]
  rfl

/-- The reservation is given up for the call that takes it over. -/
theorem transfer (h : s.Sound) (hg : s.gates[i]? = some g) (hstage : g.stage = .finishing)
    (deferred : Bool) : (s.transfer.setGate i { g with stage := .leaving deferred }).Sound := by
  obtain ⟨-, hclose, hteardown, hoperation, hahead, hfinishing⟩ := h.of_finishing hg hstage
  rw [State.transfer, if_pos hclose]
  have hahead' := countP_setGate_leaves (k := { g with stage := .leaving deferred }) hg
    (p := Stage.isAhead) (by rw [hstage]; rfl) rfl
  have hfinishing' := countP_setGate_leaves (k := { g with stage := .leaving deferred }) hg
    (p := Stage.isFinishing) (by rw [hstage]; rfl) rfl
  have hstays : ∀ p : Stage → Bool, p (.leaving deferred) = p .finishing →
      (s.gates.set i { g with stage := .leaving deferred }).countP (p ·.stage) =
        s.gates.countP (p ·.stage) :=
    fun p hp ↦ countP_setGate_of_eq hg (by rw [hstage]; exact hp)
  obtain ⟨-, hsettled, htracked⟩ := h.gate g (List.mem_of_getElem? hg)
  refine ⟨?_, ?_, ?_, ?_, ?_, ?_, ?_, ?_, ?_, h.returned⟩
  · simp only [State.setGate, hteardown, Option.isSome_none, Bool.toNat_false]
    omega
  · simp only [State.setGate]
    omega
  · exact (hstays Stage.isBusy rfl).trans_le h.busy
  · exact (hstays Stage.isAwaited rfl).trans h.awaited
  · simp [State.setGate, hoperation]
  · simp only [State.setGate, Bool.toNat_false]
    omega
  · exact (hstays Stage.isEntered rfl).trans h.nested
  · simp [State.setGate, hteardown]
  · exact List.forall_mem_set h.gate ⟨by simp, fun _ ↦ hsettled (by simp [hstage]), htracked⟩

/-- The teardown is entered by a `finish_wait`. -/
theorem enterTeardown_nested (h : s.Sound) (hfree : s.closeInProgress = false)
    (hg : s.gates[i]? = some g) (hstage : g.stage = .leaving false) (thread : Thread) :
    ((s.enterTeardown (some i) thread).setGate i { g with stage := .entered }).Sound := by
  obtain ⟨hahead, hteardown, hoperation⟩ := h.of_free hfree
  have hnested := h.nested
  rw [hteardown, Option.any_none, Bool.toNat_false] at hnested
  have hentered := countP_setGate_joins (k := { g with stage := .entered }) hg
    (p := Stage.isEntered) (by rw [hstage]; rfl) rfl
  have hstays : ∀ p : Stage → Bool, p .entered = p (.leaving false) →
      (s.gates.set i { g with stage := .entered }).countP (p ·.stage) =
        s.gates.countP (p ·.stage) :=
    fun p hp ↦ countP_setGate_of_eq hg (by rw [hstage]; exact hp)
  obtain ⟨-, hsettled, htracked⟩ := h.gate g (List.mem_of_getElem? hg)
  refine ⟨?_, ?_, ?_, ?_, ?_, ?_, ?_, ?_, ?_, ?_⟩
  · simp only [State.setGate, State.enterTeardown, hstays Stage.isAhead rfl, hahead]
    rfl
  · simp only [State.setGate, State.enterTeardown, hstays Stage.isAhead rfl, hahead]
    omega
  · exact (hstays Stage.isBusy rfl).trans_le h.busy
  · exact (hstays Stage.isAwaited rfl).trans h.awaited
  · simp [State.setGate, State.enterTeardown, hoperation]
  · exact (hstays Stage.isFinishing rfl).trans h.finishing
  · exact hentered.trans (by rw [hnested]; rfl)
  · intro u j hu hgate _
    obtain rfl := Option.some.inj hu
    obtain rfl := Option.some.inj hgate
    exact ⟨_, List.getElem?_set_self (List.getElem?_eq_some_iff.1 hg).1, rfl⟩
  · exact List.forall_mem_set h.gate ⟨by simp, fun _ ↦ hsettled (by simp [hstage]), htracked⟩
  · intro u hu hsuspended
    obtain rfl := Option.some.inj hu
    simp at hsuspended

end State.Sound

theorem State.outcome_cases (s : State) (thread : Thread) :
    s.outcome thread = .tearsDown ∨ s.outcome thread = .waits ∨ s.outcome thread = .recursive := by
  unfold outcome
  split
  · split <;> simp
  · split
    · simp
    · split <;> simp

theorem State.invalidateComponentConstructions_setGate (s : State) (i : ℕ) (g : Gate) :
    (s.setGate i g).invalidateComponentConstructions =
      s.invalidateComponentConstructions.setGate i g := by
  unfold invalidateComponentConstructions
  split
  · rename_i hnil
    rw [if_pos (show s.componentConstructions = [] from hnil)]
  · rename_i hne
    rw [if_neg (show ¬ s.componentConstructions = [] from hne)]
    rfl

theorem State.closeAfterConstructionWait_setGate (s : State) {i : ℕ} (hi : i < s.gates.length)
    (g : Gate) (waiters : List Waiter) (thread : Thread) :
    (s.setGate i g).closeAfterConstructionWait waiters thread =
      (s.closeAfterConstructionWait waiters thread).setGate i g := by
  unfold closeAfterConstructionWait
  split
  · rename_i hsome
    rw [if_pos (show s.closeWaitOperation.isSome = true from hsome)]
  · rename_i hnone
    rw [if_neg (show ¬ s.closeWaitOperation.isSome = true from hnone)]
    simp [setGate, List.set_append_left i g hi]

theorem State.closeInProgress_invalidateComponentConstructions (s : State) :
    s.invalidateComponentConstructions.closeInProgress = s.closeInProgress := by
  unfold invalidateComponentConstructions
  split <;> rfl

theorem State.gates_invalidateComponentConstructions (s : State) :
    s.invalidateComponentConstructions.gates = s.gates := by
  unfold invalidateComponentConstructions
  split <;> rfl

namespace State.Sound

variable {s t : State} {i : ℕ} {g k : Gate}

/-- **The reservation is taken over.** What `finish_wait` calls is admitted, and decides by what is in
flight. -/
theorem enter_eq (h : s.Sound) (hg : s.gates[i]? = some g) (hstage : g.stage = .finishing) :
    s.enter i = some ((s.transfer.reserve (some i) .reactor).1.setGate i
      { g with stage := s.stageAfter (s.transfer.reserve (some i) .reactor).2 }) := by
  obtain ⟨hadmits, -⟩ := h.of_finishing hg hstage
  simp only [State.enter, hg, State.closeBackend, hadmits, if_true]
  exact if_pos hstage

theorem enter (h : s.Sound) (ht : s.enter i = some t) : t.Sound := by
  cases hg : s.gates[i]? with
  | none => simp [State.enter, hg] at ht
  | some g =>
  by_cases hstage : g.stage = .finishing
  swap
  · simp [State.enter, hg, hstage] at ht
  rw [h.enter_eq hg hstage, Option.some.injEq] at ht
  subst ht
  obtain ⟨-, hclose, -⟩ := h.of_finishing hg hstage
  have hi : i < s.transfer.gates.length := by
    rw [State.transfer, if_pos hclose]
    exact (List.getElem?_eq_some_iff.1 hg).1
  have hfree : s.transfer.closeInProgress = false := by rw [State.transfer, if_pos hclose]
  unfold State.reserve
  rcases s.transfer.outcome_cases .reactor with ho | ho | ho
  · rw [ho]
    have hset := (h.transfer hg hstage false).invalidateSetup
    have hentered := hset.enterTeardown_nested hfree
      (List.getElem?_set_self (a := { g with stage := .leaving false }) hi) rfl .reactor
    simpa [State.setGate, State.enterTeardown, State.invalidateSetup, State.stageAfter]
      using hentered
  · rw [ho]
    have hset := (h.transfer hg hstage true).invalidateSetup.invalidateComponentConstructions
    have hwait := hset.closeAfterConstructionWait
      (by rw [closeInProgress_invalidateComponentConstructions]; exact hfree)
      s.transfer.invalidateSetup.waiters
    have hlt : i < s.transfer.invalidateSetup.invalidateComponentConstructions.gates.length := by
      rw [gates_invalidateComponentConstructions]
      exact hi
    have hcomm := closeAfterConstructionWait_setGate
      s.transfer.invalidateSetup.invalidateComponentConstructions hlt
      { g with stage := .leaving true } s.transfer.invalidateSetup.waiters .reactor
    rw [← invalidateComponentConstructions_setGate] at hcomm
    exact hcomm ▸ hwait
  · rw [ho]
    have hset := (h.transfer hg hstage false).invalidateSetup
    dsimp only
    split
    · exact hset
    · exact (invalidateComponentConstructions_setGate _ _ _) ▸
        hset.invalidateComponentConstructions

end State.Sound

/-! ### The teardown -/

theorem State.returnTo_eq {gates : List Gate} {i : ℕ} {g : Gate} (hg : gates[i]? = some g)
    (deferred : Bool) :
    returnTo gates (some i) deferred = gates.set i { g with stage := .leaving deferred } := by
  rw [returnTo, List.modify_eq_set_getElem?, hg]
  rfl

namespace State.Sound

variable {s t : State} {u : Teardown}

/-- The teardown goes on where it is. -/
theorem goesOn (h : s.Sound) (hu : s.teardown = some u) {v : Teardown} (hgate : v.gate = u.gate)
    (hreturned : v.returned = u.returned) (hsuspended : v.suspended = true → v.returned = true) :
    State.Sound { s with teardown := some v } := by
  have hcarried := h.carried
  have hnested := h.nested
  rw [hu] at hcarried hnested
  refine ⟨hcarried, h.owner, h.busy, h.awaited, h.operation, h.finishing, ?_, ?_, h.gate, ?_⟩
  · rw [Option.any_some, Teardown.isNested, hgate, hreturned]
    exact hnested
  · intro w i hw
    obtain rfl := Option.some.inj hw
    rw [hgate, hreturned]
    exact h.entered u i hu
  · intro w hw
    obtain rfl := Option.some.inj hw
    exact hsuspended

/-- The gates after `close_backend` has returned to the `finish_wait` that called it. -/
theorem gates_returns (h : s.Sound) (hu : s.teardown = some u) (hreturned : u.returned = false)
    (deferred : Bool) :
    (∀ p : Stage → Bool, p .entered = p (.leaving deferred) →
      (returnTo s.gates u.gate deferred).countP (p ·.stage) = s.gates.countP (p ·.stage)) ∧
      (returnTo s.gates u.gate deferred).countP (·.stage.isEntered) = 0 ∧
      ∀ g ∈ returnTo s.gates u.gate deferred, g.Sound s.asyncComponentOperations := by
  have hnested := h.nested
  cases hgate : u.gate with
  | none =>
    rw [hu, Option.any_some, Teardown.isNested, hgate] at hnested
    exact ⟨fun _ _ ↦ rfl, hnested, h.gate⟩
  | some i =>
    obtain ⟨g, hg, hstage⟩ := h.entered u i hu hgate hreturned
    rw [hu, Option.any_some, Teardown.isNested, hgate, hreturned] at hnested
    obtain ⟨-, hsettled, htracked⟩ := h.gate g (List.mem_of_getElem? hg)
    rw [State.returnTo_eq hg]
    refine ⟨?_, ?_, ?_⟩
    · intro p hp
      exact countP_setGate_of_eq hg (by rw [hstage]; exact hp.symm)
    · have := countP_setGate_leaves (k := { g with stage := .leaving deferred }) hg
        (p := Stage.isEntered) (by rw [hstage]; rfl) rfl
      simp only [Option.isSome_some, Bool.not_false, Bool.and_self, Bool.toNat_true] at hnested
      omega
    · exact List.forall_mem_set h.gate ⟨by simp, fun _ ↦ hsettled (by simp [hstage]), htracked⟩

/-- There is no gate to come while the teardown is under way. -/
theorem of_teardown (h : s.Sound) (hu : s.teardown = some u) :
    s.gates.countP (·.stage.isAhead) = 0 ∧ s.closeWaitOperation = none ∧
      s.closeInProgress = true := by
  have hcarried := h.carried
  rw [hu, Option.isSome_some, Bool.toNat_true] at hcarried
  have hle := Bool.toNat_le s.closeInProgress
  have hahead := countP_ahead s.gates
  have hnone : s.closeWaitOperation.isSome.toNat = 0 := by
    have := h.awaited
    omega
  rw [Bool.toNat_eq_zero, Option.isSome_eq_false_iff, Option.isNone_iff_eq_none] at hnone
  exact ⟨by omega, hnone, Bool.toNat_eq_one.1 (by omega)⟩

theorem suspend (h : s.Sound) (hu : s.teardown = some u) : (s.suspend u).Sound := by
  unfold State.suspend
  by_cases hreturned : u.returned = true
  · simp only [hreturned, if_true]
    exact h.goesOn hu rfl hreturned.symm fun _ ↦ rfl
  rw [Bool.not_eq_true] at hreturned
  simp only [hreturned, if_neg Bool.false_ne_true]
  obtain ⟨hcount, hentered, hsound⟩ := h.gates_returns hu hreturned true
  obtain ⟨hahead, hoperation, hclose⟩ := h.of_teardown hu
  refine ⟨?_, ?_, ?_, ?_, ?_, ?_, ?_, ?_, hsound, fun _ hv _ ↦ ?_⟩
  · rw [hcount Stage.isAhead rfl, hahead, hclose]
    rfl
  · rw [hcount Stage.isAhead rfl, hahead]
    omega
  · exact (hcount Stage.isBusy rfl).trans_le h.busy
  · exact (hcount Stage.isAwaited rfl).trans h.awaited
  · simp [hoperation]
  · exact (hcount Stage.isFinishing rfl).trans h.finishing
  · rw [hentered]
    simp [Teardown.isNested]
  · intro v i hv _ hr
    obtain rfl := Option.some.inj hv
    simp at hr
  · obtain rfl := Option.some.inj hv
    rfl

theorem finish (h : s.Sound) (hu : s.teardown = some u) (ended : Ended) :
    (s.finish u ended).Sound := by
  unfold State.finish
  obtain ⟨hahead, hoperation, hclose⟩ := h.of_teardown hu
  by_cases hreturned : u.returned = true
  · rw [if_pos hreturned]
    have hnested := h.nested
    rw [hu, Option.any_some, Teardown.isNested, hreturned, Bool.not_true, Bool.and_false] at hnested
    refine ⟨?_, ?_, h.busy, h.awaited, h.operation, h.finishing, hnested, ?_, h.gate, ?_⟩
    · simp only [State.resetCloseState, hahead]
      rfl
    · intro hpos
      exact absurd hahead hpos.ne'
    · simp [State.resetCloseState]
    · simp [State.resetCloseState]
  rw [if_neg hreturned]
  rw [Bool.not_eq_true] at hreturned
  obtain ⟨hcount, hentered, hsound⟩ := h.gates_returns hu hreturned ended.isDeferred
  refine ⟨?_, ?_, ?_, ?_, ?_, ?_, ?_, ?_, hsound, ?_⟩
  · simp only [State.resetCloseState]
    rw [hcount Stage.isAhead rfl, hahead]
    rfl
  · rw [State.resetCloseState, hcount Stage.isAhead rfl, hahead]
    omega
  · exact (hcount Stage.isBusy rfl).trans_le h.busy
  · exact (hcount Stage.isAwaited rfl).trans h.awaited
  · simp [State.resetCloseState, hoperation]
  · exact (hcount Stage.isFinishing rfl).trans h.finishing
  · exact hentered
  · simp [State.resetCloseState]
  · simp [State.resetCloseState]

end State.Sound

/-- **One step**, as long as a close that has to wait is called on the reactor thread. -/
theorem State.Sound.step {s t : State} {a : Label} (h : s.Sound) (hwaits : WaitsOnReactor s a)
    (ht : s.step a = some t) : t.Sound := by
  cases a with
  | setup thread => exact h.setup ht
  | finishSetup => exact h.finishSetup ht
  | construct kind thread => exact h.construct ht
  | finishConstruction i => exact h.finishConstruction ht
  | track =>
    obtain rfl := Option.some.inj ht
    exact h.track
  | complete o => exact h.complete ht
  | waited i => exact h.waited ht
  | finishWait i => exact h.finishWait ht
  | enter i => exact h.enter ht
  | leave i => exact h.leave ht
  | close thread =>
    simp only [State.step] at ht
    split at ht
    · rename_i hfree
      obtain rfl := Option.some.inj ht
      exact h.close hwaits hfree
    · simp at ht
  | pass =>
    obtain ⟨u, hu, ht⟩ := Option.bind_eq_some_iff.1 ht
    split at ht
    · obtain rfl := Option.some.inj ht
      exact h.goesOn hu rfl rfl (h.returned u hu)
    · simp at ht
  | suspend =>
    obtain ⟨u, hu, ht⟩ := Option.bind_eq_some_iff.1 ht
    split at ht
    · obtain rfl := Option.some.inj ht
      exact h.suspend hu
    · simp at ht
  | settle =>
    obtain ⟨u, hu, ht⟩ := Option.bind_eq_some_iff.1 ht
    split at ht
    · obtain rfl := Option.some.inj ht
      exact h.goesOn hu rfl rfl (by simp)
    · simp at ht
  | finish ended =>
    obtain ⟨u, hu, ht⟩ := Option.bind_eq_some_iff.1 ht
    split at ht
    · obtain rfl := Option.some.inj ht
      exact h.finish hu ended
    · simp at ht

/-! ## The teardown is reached, and ends -/

def Stage.rank : Stage → ℕ
  | pending => 4
  | fired => 3
  | finishing | entered => 2
  | leaving _ => 1
  | left => 0

/-- How many completions and callbacks there are to come at most, once no call comes in between. -/
def State.rank (s : State) : ℕ :=
  (s.gates.map (·.stage.rank)).sum + s.setupAttempt.isSome.toNat + s.componentConstructions.length +
    s.asyncComponentOperations.length + (s.teardown.elim 0 fun t ↦ 2 * t.phases + t.suspended.toNat)

namespace State

variable {s t : State} {i : ℕ} {g k : Gate}

/-- A gate goes on. -/
theorem rank_setGate (hg : s.gates[i]? = some g) (hlt : k.stage.rank < g.stage.rank) :
    (s.setGate i k).rank < s.rank := by
  have hsum := List.sum_map_set_add (fun g : Gate ↦ g.stage.rank) hg (b := k)
  simp only [rank, setGate]
  omega

/-- The reactor is idle, or it can go on in a `finish_wait` that is about to leave. -/
theorem isIdle_or_leave (hbusy : ∀ g ∈ s.gates, g.stage.isBusy = true → ∃ b, g.stage = .leaving b)
    (hteardown : ∀ t, s.teardown = some t → t.suspended = true) :
    s.isIdle = true ∨ ∃ i, (s.leave i).isSome = true := by
  by_cases hany : s.gates.any (·.stage.isBusy) = true
  · obtain ⟨g, hg, hgbusy⟩ := List.any_eq_true.1 hany
    obtain ⟨b, hstage⟩ := hbusy g hg hgbusy
    obtain ⟨i, hi⟩ := List.mem_iff_getElem?.1 hg
    refine .inr ⟨i, ?_⟩
    simp [leave, hi, hstage]
  · refine .inl ?_
    rw [isIdle, Bool.and_eq_true]
    refine ⟨by simpa using hany, ?_⟩
    cases ht : s.teardown with
    | none => rfl
    | some t => simp [hteardown t ht]

end State

namespace State.Sound

variable {s t : State} {i : ℕ} {g : Gate}

theorem rank_leave (ht : s.leave i = some t) :
    t.rank < s.rank ∧ t.teardown = s.teardown ∧ t.closeInProgress = s.closeInProgress ∧
      (s.Quiet → t.Quiet) := by
  unfold State.leave at ht
  obtain ⟨g, hg, ht⟩ := Option.bind_eq_some_iff.1 ht
  cases hstage : g.stage with
  | leaving b =>
    simp only [hstage, Option.some.injEq] at ht
    subst ht
    refine ⟨?_, rfl, rfl, id⟩
    have hlt : (Stage.left).rank < g.stage.rank := by
      rw [hstage]
      exact Nat.one_pos
    exact State.rank_setGate (k := { g with stage := .left }) hg hlt
  | pending | fired | finishing | entered | left => simp [hstage] at ht

/-- The gate that is ahead, where there is no teardown. -/
theorem exists_ahead (h : s.Sound) (hclose : s.closeInProgress = true) (hnone : s.teardown = none) :
    ∃ (i : ℕ) (g : Gate), s.gates[i]? = some g ∧ g.stage.isAhead = true := by
  have hcarried := h.carried
  rw [hclose, hnone, Option.isSome_none, Bool.toNat_false, Bool.toNat_true, Nat.add_zero] at hcarried
  obtain ⟨g, hg, hahead⟩ := List.countP_pos_iff.1 (hcarried ▸ Nat.one_pos)
  obtain ⟨i, hi⟩ := List.mem_iff_getElem?.1 hg
  exact ⟨i, g, hi, hahead⟩

end State.Sound


namespace State.Sound

variable {s t : State} {i : ℕ} {g : Gate}

/-- Where nothing is in flight, a pending gate waits for its worker only. -/
theorem remaining_of_quiet (h : s.Sound) (hquiet : s.Quiet) (hg : g ∈ s.gates)
    (hstage : g.stage = .pending) : g.remaining = 1 ∧ g.waiting = true := by
  obtain ⟨hcount, -, htracked⟩ := h.gate g hg
  obtain ⟨hremaining, hpos⟩ := hcount hstage
  rw [hquiet.2.2, List.subperm_nil] at htracked
  rw [htracked, List.length_nil, Nat.zero_add] at hremaining
  cases hwaiting : g.waiting with
  | true => exact ⟨by rw [hremaining, hwaiting]; rfl, rfl⟩
  | false => simp [hremaining, hwaiting] at hpos

theorem isSet_of_quiet (hquiet : s.Quiet) (w : Waiter) : s.isSet w = true := by
  cases w <;> simp [State.isSet, hquiet.1, hquiet.2.1]

/-- Where nothing is in flight, the next step of the wait can be taken. -/
theorem exists_step_of_quiet (h : s.Sound) (hquiet : s.Quiet) (hclose : s.closeInProgress = true)
    (hnone : s.teardown = none) : ∃ a, a.IsCompletion ∧ (s.step a).isSome = true := by
  obtain ⟨i, g, hg, hahead⟩ := h.exists_ahead hclose hnone
  cases hstage : g.stage with
  | pending =>
    have hbusy : ∀ x ∈ s.gates, x.stage.isBusy = true → ∃ b, x.stage = .leaving b := by
      intro x hx hxbusy
      obtain ⟨j, hj⟩ := List.mem_iff_getElem?.1 hx
      -- What is busy and not about to leave is ahead as well, or inside a teardown.
      have hne : ¬ x.stage.isAhead = true := by
        intro hxahead
        obtain rfl := List.eq_of_countP_le_one (fun g : Gate ↦ g.stage.isAhead) h.countP_ahead_le
          hg hj hahead hxahead
        obtain rfl := Option.some.inj (hg.symm.trans hj)
        simp [hstage, Stage.isBusy] at hxbusy
      have hentered : ¬ x.stage.isEntered = true := by
        have := h.nested
        rw [hnone, Option.any_none, Bool.toNat_false, List.countP_eq_zero] at this
        exact this x hx
      revert hxbusy hne hentered
      cases x.stage <;> simp [Stage.isBusy, Stage.isAhead, Stage.isEntered]
    rcases s.isIdle_or_leave hbusy (by simp [hnone]) with hidle | ⟨j, hj⟩
    · refine ⟨.waited i, trivial, ?_⟩
      have hset : ∀ w ∈ g.waiters, s.isSet w = true := fun w _ ↦ isSet_of_quiet hquiet w
      have hwaiting := (h.remaining_of_quiet hquiet (List.mem_of_getElem? hg) hstage).2
      simpa [State.step, State.waited, hg, hidle, hstage, hwaiting] using hset
    · exact ⟨.leave j, trivial, hj⟩
  | fired =>
    refine ⟨.finishWait i, trivial, ?_⟩
    simp [State.step, State.finishWait, hg, hstage]
  | finishing =>
    refine ⟨.enter i, trivial, ?_⟩
    rw [State.step, h.enter_eq hg hstage, Option.isSome_some]
  | entered | leaving b | left =>
    rw [hstage] at hahead
    exact absurd hahead Bool.false_ne_true

/-- Where nothing is in flight, a step of the wait enters the teardown or comes nearer to it. -/
theorem step_of_quiet (h : s.Sound) (hquiet : s.Quiet) (hclose : s.closeInProgress = true)
    (hnone : s.teardown = none) {a : Label} (ha : a.IsCompletion) (ht : s.step a = some t) :
    t.teardown.isSome = true ∨
      (t.Quiet ∧ t.closeInProgress = true ∧ t.teardown = none) ∧ t.rank < s.rank := by
  obtain ⟨hsetup, hconstructions, hoperations⟩ := hquiet
  cases a with
  | setup _ => exact absurd ha id
  | construct _ _ => exact absurd ha id
  | track => exact absurd ha id
  | close _ => exact absurd ha id
  | finishSetup => simp [State.step, State.finishSetup, hsetup] at ht
  | finishConstruction i => simp [State.step, State.finishConstruction, hconstructions] at ht
  | complete o => simp [State.step, State.complete, hoperations] at ht
  | waited i =>
    simp only [State.step, State.waited] at ht
    obtain ⟨g, hg, ht⟩ := Option.bind_eq_some_iff.1 ht
    split at ht
    · rename_i hif
      obtain ⟨-, hstage, -⟩ := hif
      obtain rfl := Option.some.inj ht
      have hone := (h.remaining_of_quiet ⟨hsetup, hconstructions, hoperations⟩
        (List.mem_of_getElem? hg) hstage).1
      refine .inr ⟨⟨⟨hsetup, hconstructions, hoperations⟩, hclose, hnone⟩, State.rank_setGate hg ?_⟩
      simp [Gate.settle, hone, hstage, Stage.rank]
    · simp at ht
  | finishWait i =>
    simp only [State.step, State.finishWait] at ht
    obtain ⟨g, hg, ht⟩ := Option.bind_eq_some_iff.1 ht
    split at ht
    · rename_i hstage
      have hlt : (s.setGate i { g with stage := .finishing }).rank < s.rank :=
        State.rank_setGate hg (by rw [hstage]; exact Nat.lt_succ_self _)
      obtain rfl := Option.some.inj ht
      split
      · exact .inr ⟨⟨⟨hsetup, hconstructions, hoperations⟩, hclose, hnone⟩, hlt⟩
      · exact .inr ⟨⟨⟨hsetup, hconstructions, hoperations⟩, hclose, hnone⟩, hlt⟩
    · simp at ht
  | enter i =>
    simp only [State.step] at ht
    cases hg : s.gates[i]? with
    | none => simp [State.enter, hg] at ht
    | some g =>
    by_cases hstage : g.stage = .finishing
    swap
    · simp [State.enter, hg, hstage] at ht
    rw [h.enter_eq hg hstage, Option.some.injEq] at ht
    subst ht
    have houtcome : s.transfer.outcome .reactor = .tearsDown := by
      rw [State.transfer, if_pos hclose]
      simp [State.outcome, hsetup, hconstructions, hoperations]
    simp only [State.reserve, houtcome]
    exact .inl rfl
  | leave i =>
    obtain ⟨hlt, hteardown, hcloses, hquiets⟩ := rank_leave ht
    exact .inr ⟨⟨hquiets ⟨hsetup, hconstructions, hoperations⟩, hcloses.trans hclose,
      hteardown.trans hnone⟩, hlt⟩
  | pass => simp [State.step, hnone] at ht
  | suspend => simp [State.step, hnone] at ht
  | settle => simp [State.step, hnone] at ht
  | finish ended => simp [State.step, hnone] at ht

end State.Sound


namespace State.Sound

variable {s t : State} {i : ℕ} {g : Gate} {u : Teardown}

/-- No gate has yet to call `close_backend` while a teardown is under way. -/
theorem not_ahead (h : s.Sound) (hu : s.teardown = some u) (hg : g ∈ s.gates) :
    g.stage.isAhead = false := by
  have := List.countP_eq_zero.1 (h.of_teardown hu).1 g hg
  simpa using this

theorem exists_step_of_teardown (h : s.Sound) (hu : s.teardown = some u) :
    ∃ a, a.IsCompletion ∧ (s.step a).isSome = true := by
  cases hsuspended : u.suspended with
  | false =>
    by_cases hphases : u.phases = 0
    · refine ⟨.finish .none, trivial, ?_⟩
      simp [State.step, hu, hsuspended, hphases]
    · refine ⟨.pass, trivial, ?_⟩
      simp [State.step, hu, hsuspended, hphases]
  | true =>
    have hreturned := h.returned u hu hsuspended
    have hbusy : ∀ x ∈ s.gates, x.stage.isBusy = true → ∃ b, x.stage = .leaving b := by
      intro x hx hxbusy
      have hahead := h.not_ahead hu hx
      have hentered : ¬ x.stage.isEntered = true := by
        have := h.nested
        rw [hu, Option.any_some, Teardown.isNested, hreturned, Bool.not_true, Bool.and_false,
          Bool.toNat_false, List.countP_eq_zero] at this
        exact this x hx
      revert hxbusy hahead hentered
      cases x.stage <;> simp [Stage.isBusy, Stage.isAhead, Stage.isEntered]
    have hall : ∀ v, s.teardown = some v → v.suspended = true := by
      intro v hv
      obtain rfl := Option.some.inj (hu.symm.trans hv)
      exact hsuspended
    rcases s.isIdle_or_leave hbusy hall with hidle | ⟨j, hj⟩
    · refine ⟨.settle, trivial, ?_⟩
      simp [State.step, hu, hsuspended, hidle]
    · exact ⟨.leave j, trivial, hj⟩

/-- The ranks of the gates do not grow when `close_backend` returns. -/
theorem sum_returnTo_le (h : s.Sound) (hu : s.teardown = some u) (hreturned : u.returned = false)
    (deferred : Bool) :
    ((returnTo s.gates u.gate deferred).map (·.stage.rank)).sum ≤
      (s.gates.map (·.stage.rank)).sum := by
  cases hgate : u.gate with
  | none => exact le_rfl
  | some i =>
    obtain ⟨g, hg, hstage⟩ := h.entered u i hu hgate hreturned
    have hsum := List.sum_map_set_add (fun g : Gate ↦ g.stage.rank) hg
      (b := { g with stage := .leaving deferred })
    have hrank : g.stage.rank = 2 := by rw [hstage]; rfl
    have hrank' : (Stage.leaving deferred).rank = 1 := rfl
    rw [State.returnTo_eq hg]
    dsimp only at hsum
    omega

/-- A step of the teardown ends it or brings it nearer to its end. -/
theorem step_of_teardown (h : s.Sound) (hu : s.teardown = some u) {a : Label}
    (ha : a.IsCompletion) (ht : s.step a = some t) :
    t.closeInProgress = false ∨ t.teardown.isSome = true ∧ t.rank < s.rank := by
  cases a with
  | setup _ => exact absurd ha id
  | construct _ _ => exact absurd ha id
  | track => exact absurd ha id
  | close _ => exact absurd ha id
  | finishSetup =>
    simp only [State.step, State.finishSetup] at ht
    split at ht
    · rename_i hsome
      obtain rfl := Option.some.inj ht
      refine .inr ⟨by simp [hu], ?_⟩
      simp only [State.rank, hsome, Option.isSome_none, Bool.toNat_false, Bool.toNat_true]
      omega
    · simp at ht
  | finishConstruction i =>
    simp only [State.step, State.finishConstruction] at ht
    split at ht
    · rename_i hlt
      obtain rfl := Option.some.inj ht
      refine .inr ⟨by simp [hu], ?_⟩
      simp only [State.rank, List.length_eraseIdx, if_pos hlt]
      omega
    · simp at ht
  | complete o =>
    simp only [State.step, State.complete] at ht
    split at ht
    · rename_i hif
      obtain rfl := Option.some.inj ht
      -- No gate is pending, so that none waits for the operation.
      have hmap : s.gates.map (Gate.complete o) = s.gates := by
        refine (List.map_congr_left fun g hg ↦ ?_).trans (List.map_id _)
        have hstage : g.stage ≠ .pending := by
          intro hpending
          have hahead := h.not_ahead hu hg
          rw [hpending] at hahead
          exact absurd hahead (by decide)
        rw [Gate.complete, (h.gate g hg).settled hstage, if_neg List.not_mem_nil, id]
      have hlength := List.length_erase_of_mem hif.2
      have hpos := List.length_pos_of_mem hif.2
      refine .inr ⟨by simp [hu], ?_⟩
      simp only [State.rank, hmap, hlength]
      omega
    · simp at ht
  | waited i =>
    simp only [State.step, State.waited] at ht
    obtain ⟨g, hg, ht⟩ := Option.bind_eq_some_iff.1 ht
    split at ht
    · rename_i hif
      have hahead := h.not_ahead hu (List.mem_of_getElem? hg)
      rw [hif.2.1] at hahead
      exact absurd hahead (by decide)
    · simp at ht
  | finishWait i =>
    simp only [State.step, State.finishWait] at ht
    obtain ⟨g, hg, ht⟩ := Option.bind_eq_some_iff.1 ht
    split at ht
    · rename_i hstage
      have hahead := h.not_ahead hu (List.mem_of_getElem? hg)
      rw [hstage] at hahead
      exact absurd hahead (by decide)
    · simp at ht
  | enter i =>
    simp only [State.step, State.enter] at ht
    obtain ⟨g, hg, ht⟩ := Option.bind_eq_some_iff.1 ht
    split at ht
    · rename_i hstage
      have hahead := h.not_ahead hu (List.mem_of_getElem? hg)
      rw [hstage] at hahead
      exact absurd hahead (by decide)
    · simp at ht
  | leave i =>
    obtain ⟨hlt, hteardown, -, -⟩ := rank_leave ht
    exact .inr ⟨by rw [hteardown, hu]; rfl, hlt⟩
  | pass =>
    obtain ⟨v, hv, ht⟩ := Option.bind_eq_some_iff.1 ht
    obtain rfl := Option.some.inj (hu.symm.trans hv)
    split at ht
    · rename_i hif
      obtain rfl := Option.some.inj ht
      refine .inr ⟨rfl, ?_⟩
      simp only [State.rank, hu, Option.elim_some]
      omega
    · simp at ht
  | suspend =>
    obtain ⟨v, hv, ht⟩ := Option.bind_eq_some_iff.1 ht
    obtain rfl := Option.some.inj (hu.symm.trans hv)
    split at ht
    · rename_i hif
      obtain rfl := Option.some.inj ht
      unfold State.suspend
      cases hreturned : u.returned with
      | true =>
        refine .inr ⟨rfl, ?_⟩
        simp only [if_true, State.rank, hu, Option.elim_some, Bool.toNat_true]
        omega
      | false =>
        have hle := h.sum_returnTo_le hu hreturned true
        refine .inr ⟨rfl, ?_⟩
        simp only [if_neg Bool.false_ne_true, State.rank, hu, Option.elim_some, Bool.toNat_true]
        omega
    · simp at ht
  | settle =>
    obtain ⟨v, hv, ht⟩ := Option.bind_eq_some_iff.1 ht
    obtain rfl := Option.some.inj (hu.symm.trans hv)
    split at ht
    · rename_i hif
      obtain rfl := Option.some.inj ht
      refine .inr ⟨rfl, ?_⟩
      simp only [State.rank, hu, Option.elim_some, hif.1, Bool.toNat_true, Bool.toNat_false]
      omega
    · simp at ht
  | finish ended =>
    obtain ⟨v, hv, ht⟩ := Option.bind_eq_some_iff.1 ht
    obtain rfl := Option.some.inj (hu.symm.trans hv)
    split at ht
    · obtain rfl := Option.some.inj ht
      refine .inl ?_
      unfold State.finish
      split <;> rfl
    · simp at ht

end State.Sound


/-! ## The reservation -/

/-- Whoever calls from inside or outside, a run keeps the invariant. -/
theorem sound_along {labels : List Label} (h : machine.Along WaitsOnReactor machine.init labels) :
    machine.Always State.Sound machine.init labels :=
  h.always (fun _ _ _ hs hwaits ht ↦ hs.step hwaits ht) State.sound_initial

/-- The labels that the progress statements are about keep the invariant. -/
theorem Label.IsCompletion.waitsOnReactor {a : Label} (h : a.IsCompletion) (s : State) :
    WaitsOnReactor s a := by
  cases a with
  | close thread => exact absurd h id
  | _ => trivial

namespace State.Sound

variable {s : State}

/-- Once nothing is in flight any more, a reserved close comes to its teardown. -/
theorem inevitable_teardown (h : s.Sound) (hquiet : s.Quiet) (hclose : s.closeInProgress = true) :
    machine.Inevitable Label.IsCompletion (fun t ↦ t.teardown.isSome = true) s := by
  refine Machine.Inevitable.of_rank
    (I := fun s ↦ s.Sound ∧ s.Quiet ∧ s.closeInProgress = true) State.rank ?_ ?_
    ⟨h, hquiet, hclose⟩
  · rintro s ⟨h, hquiet, hclose⟩ hnone
    exact h.exists_step_of_quiet hquiet hclose (by simpa using hnone)
  · rintro s a t ⟨h, hquiet, hclose⟩ hnone ha ht
    rcases h.step_of_quiet hquiet hclose (by simpa using hnone) ha ht with hdone | ⟨hnext, hlt⟩
    · exact .inl hdone
    · exact .inr ⟨⟨h.step (ha.waitsOnReactor s) ht, hnext.1, hnext.2.1⟩, hlt⟩

/-- A teardown ends, and gives the reservation back. -/
theorem inevitable_reset (h : s.Sound) (hteardown : s.teardown.isSome = true) :
    machine.Inevitable Label.IsCompletion (fun t ↦ t.closeInProgress = false) s := by
  refine Machine.Inevitable.of_rank (I := fun s ↦ s.Sound ∧ s.teardown.isSome = true) State.rank
    ?_ ?_ ⟨h, hteardown⟩
  · rintro s ⟨h, hteardown⟩ -
    obtain ⟨u, hu⟩ := Option.isSome_iff_exists.1 hteardown
    exact h.exists_step_of_teardown hu
  · rintro s a t ⟨h, hteardown⟩ - ha ht
    obtain ⟨u, hu⟩ := Option.isSome_iff_exists.1 hteardown
    rcases h.step_of_teardown hu ha ht with hdone | ⟨hsome, hlt⟩
    · exact .inl hdone
    · exact .inr ⟨⟨h.step (ha.waitsOnReactor s) ht, hsome⟩, hlt⟩

end State.Sound

/-- **The reservation is not orphaned**, in any run whose waiting closes are called on the reactor thread:
while the flag is set, a thread is at the teardown, a completion goes on with it, or a `finish_wait` to
come takes the reservation over. Once nothing is in flight the teardown is entered, and a teardown gives
the flag back. -/
theorem close_reservation {labels : List Label}
    (h : machine.Along WaitsOnReactor machine.init labels) :
    machine.Always (fun s ↦
      (s.closeInProgress = true → s.Inside ∨ s.Completing ∨ s.HandsOver) ∧
      (s.closeInProgress = true → s.Quiet →
        machine.Inevitable Label.IsCompletion (fun t ↦ t.teardown.isSome = true) s) ∧
      (s.teardown.isSome = true →
        machine.Inevitable Label.IsCompletion (fun t ↦ t.closeInProgress = false) s))
      machine.init labels :=
  (sound_along h).mono fun _ hs ↦ ⟨hs.carries, fun hclose hquiet ↦ hs.inevitable_teardown hquiet hclose,
    hs.inevitable_reset⟩

/-- A close on the reactor thread that waits for the construction and the operation of a worker. -/
def waitedClose : List Label :=
  [.track, .construct .queue (.worker 1), .close .reactor, .finishConstruction 0, .complete 0,
    .waited 0, .finishWait 0, .enter 0]

theorem close_reservation_waitedClose :
    machine.Always (fun s ↦
      (s.closeInProgress = true → s.Inside ∨ s.Completing ∨ s.HandsOver) ∧
      (s.closeInProgress = true → s.Quiet →
        machine.Inevitable Label.IsCompletion (fun t ↦ t.teardown.isSome = true) s) ∧
      (s.teardown.isSome = true →
        machine.Inevitable Label.IsCompletion (fun t ↦ t.closeInProgress = false) s))
      machine.init waitedClose ∧
      (machine.run machine.init waitedClose).any (·.teardown.isSome) = true :=
  ⟨close_reservation (by decide +kernel), by decide +kernel⟩

/-! ### A close of a failing worker -/

/-- The worker of a `get_queue_async` fails and closes the mixin from its own thread: it waits for the
operation it is running in. -/
def workerClose : List Label :=
  [.track, .construct .queue (.worker 1), .finishConstruction 0, .close (.worker 1), .complete 0,
    .waited 0, .finishWait 0, .enter 0, .leave 0]

theorem isSome_workerClose : (machine.run machine.init workerClose).isSome = true := by
  decide +kernel

/-- The state after everything has settled. -/
def afterWorkerClose : State := Option.get _ isSome_workerClose

/-- **The hand-over to another thread is lost**: the mixin stays reserved with nothing in flight, no thread
at it and nothing to come, and no later close gets past the reservation. -/
theorem worker_close_orphans :
    machine.Reachable afterWorkerClose ∧ afterWorkerClose.closeInProgress = true ∧
      afterWorkerClose.Quiet ∧ afterWorkerClose.teardown = none ∧
      afterWorkerClose.gates.all (·.stage == .left) = true ∧
      ¬ (afterWorkerClose.Inside ∨ afterWorkerClose.Completing ∨ afterWorkerClose.HandsOver) ∧
      ∀ thread, afterWorkerClose.closeBackend none thread = (afterWorkerClose, .shared) := by
  have hteardown : afterWorkerClose.teardown = none := by decide +kernel
  have hleft : afterWorkerClose.gates.all (·.stage == .left) = true := by decide +kernel
  have hfinishing : afterWorkerClose.closeWaitFinishing = false := by decide +kernel
  have hclose : afterWorkerClose.closeInProgress = true := by decide +kernel
  have hdeferred : afterWorkerClose.closeDeferred.isSome = true := by decide +kernel
  refine ⟨⟨workerClose, (Option.some_get isSome_workerClose).symm⟩, hclose,
    ⟨by decide +kernel, by decide +kernel, by decide +kernel⟩, hteardown, hleft, ?_, ?_⟩
  · rintro (⟨t, ht, -⟩ | ⟨t, ht, -⟩ | ⟨-, g, hg, hahead⟩)
    · simp [hteardown] at ht
    · simp [hteardown] at ht
    · have hstage : g.stage = .left := by simpa using List.all_eq_true.1 hleft g hg
      rw [hstage] at hahead
      exact absurd hahead (by decide)
  · intro thread
    have hadmits : afterWorkerClose.admits thread = false := by
      simp [State.admits, hclose, hfinishing]
    simp [State.closeBackend, hadmits, hdeferred]


end CloseReservation

end ScrapyExtension
