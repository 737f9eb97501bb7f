import Mathlib.Tactic
import ScrapyExtension.Machine.Basic
import ScrapyExtension.Machine.Threads

/-!
# Redis client generations

`RedisBackend` publishes one generation of SDK clients at a time. A candidate is built under the connect
lock, and published, leased and detached under the condition. A disconnect raises the epoch and a barrier,
detaches the generation, waits until its leases are gone, and closes its clients. A connect, and an
operation that connects on demand, go by the epoch that they have read first.

## Steps

A section under the condition is one step, and so is each call of the SDK; what the SDK does is up to the
label, and it may call back, which is a call like any other. `_lease_local.depth` and
`_connect_local.depth` are how many calls of a thread are in the bodies that they count.

## Signals

A control exception may come out of any call that the code makes: a constructor, the health check, a wait,
`notify_all`, `close`, an operation. Beyond these, `Stop` and `attempted` have a signal come between two
statements of a disconnect or of `_close_handles` that no handler covers, and `lost` one between the
admission of a lease and the `try` that gives it back.
-/

namespace ScrapyExtension

namespace RedisGenerations

/-- The SDK objects of a generation, numbered as they are built. -/
structure Handles where
  client : Option ℕ
  masterClient : Option ℕ
  sentinel : Option ℕ
deriving DecidableEq

namespace Handles

def none : Handles := ⟨.none, .none, .none⟩

/-- `unique` in `_close_handles` -/
def distinct (h : Handles) : List ℕ :=
  (h.client.toList ++ h.masterClient.toList ++ h.sentinel.toList).dedup

end Handles

/-- `_RedisGeneration` -/
structure Generation where
  handles : Handles
  accepting : Bool
  activeLeases : ℕ

/-- `RedisMode` -/
inductive Mode
  | standalone
  | masterSlave
  | sentinel
  | cluster
deriving DecidableEq

/-- What a constructor call is assigned to. -/
inductive Target
  | client
  /-- `client`, and `master_client` as an alias -/
  | both
  | sentinel
deriving DecidableEq

def Handles.assign (h : Handles) (i : ℕ) : Target → Handles
  | .client => { h with client := some i }
  | .both => { h with client := some i, masterClient := some i }
  | .sentinel => { h with sentinel := some i }

/-- A statement of `_build_and_publish_generation`. -/
inductive Action
  /-- `_raise_if_connect_cancelled` -/
  | check
  | construct (target : Target)
  | ping
  | publish
deriving DecidableEq

/-- The statements for a mode. -/
def Mode.script : Mode → List Action
  | standalone | cluster => [.check, .construct .client, .check, .ping, .check, .publish]
  | masterSlave => [.check, .construct .both, .check, .ping, .check, .publish]
  | sentinel => [.check, .construct .sentinel, .check, .construct .both, .check, .ping, .check, .publish]

/-- Who connects. -/
inductive Purpose
  | connect
  | operation
deriving DecidableEq

/-- Why a candidate is not published. -/
inductive Failure
  /-- `_RedisConnectCancelled` -/
  | cancelled
  /-- An `Exception`. -/
  | error
  /-- A control exception. -/
  | control
deriving DecidableEq

/-- Where a call is. -/
inductive Stage
  /-- `connect` waits for a disconnect. -/
  | waiting
  /-- At `_connect_for_epoch`, with the epoch. -/
  | requested (p : Purpose) (epoch : ℕ)
  /-- In its body, without the connect lock. -/
  | queued (p : Purpose) (epoch : ℕ)
  /-- With the connect lock. -/
  | locked (p : Purpose) (epoch : ℕ)
  /-- The candidate so far, and what is left to do. -/
  | building (p : Purpose) (epoch : ℕ) (handles : Handles) (rest : List Action)
  /-- The handler is to close the candidate. -/
  | discarding (p : Purpose) (epoch : ℕ) (handles : Handles) (why : Failure)
  /-- The candidate is closed. -/
  | failed (p : Purpose) (epoch : ℕ) (why : Failure)
  /-- The operation goes on after `_connect_for_epoch`. -/
  | resuming (epoch : ℕ) (connected : Bool)
  /-- In the body of a lease. -/
  | leased (g : ℕ)
  /-- A disconnect waits until the leases are gone, with what it has detached. -/
  | draining (g : Option ℕ) (handles : Handles)
  | closing (handles : Handles)
  /-- The `finally` of a disconnect. -/
  | lowering
  /-- Another disconnect is waited for. -/
  | following
  | over
deriving DecidableEq

namespace Stage

/-- A lease of the generation. -/
def leases (g : ℕ) : Stage → Bool
  | leased g' => g' = g
  | _ => false

/-- The SDK objects that the call is to publish or to close. -/
def handles : Stage → Handles
  | building _ _ h _ | discarding _ _ h _ | draining _ h | closing h => h
  | _ => .none

/-- A disconnect has detached the generation, and waits. -/
def drains (g : ℕ) : Stage → Bool
  | draining g' _ => g' = some g
  | _ => false

def isLeased : Stage → Bool
  | leased _ => true
  | _ => false

/-- In the body of `_connect_for_epoch`. -/
def isConnecting : Stage → Bool
  | queued .. | locked .. | building .. | discarding .. | failed .. => true
  | _ => false

/-- The epoch that the call goes by. -/
def epoch : Stage → Option ℕ
  | requested _ e | queued _ e | locked _ e | building _ e _ _ | discarding _ e _ _ | failed _ e _
  | resuming e _ => some e
  | _ => none

end Stage

/-- A call. -/
structure Call where
  thread : ℕ
  /-- How many disconnects had begun when the call began. -/
  since : ℕ
  stage : Stage
deriving DecidableEq

/-- The backend. -/
structure State where
  /-- `_generation` -/
  generation : Option ℕ
  /-- `_client`, `_master_client`, `_sentinel` -/
  mirrors : Handles
  /-- All generations that were published. -/
  generations : ℕ → Generation
  count : ℕ
  /-- `_lifecycle_epoch` -/
  lifecycleEpoch : ℕ
  /-- `_disconnecting` -/
  disconnecting : Bool
  /-- `_disconnect_owner` -/
  disconnectOwner : Option ℕ
  /-- `_connect_lock` -/
  connectLock : Bool
  /-- How many SDK objects were built. -/
  built : ℕ
  /-- How often `close` of an SDK object was run. -/
  closes : ℕ → ℕ
  calls : List Call

/-- Where a signal comes in the first section of a disconnect, after the barrier is up. -/
inductive Stop
  /-- Before `accepting` is cleared. -/
  | raised
  /-- Before `_generation` is cleared. -/
  | fenced
  /-- Before the mirrors are cleared. -/
  | cleared
  /-- Before `retired` is set. -/
  | detached
deriving DecidableEq

/-- How a step of a call ends. -/
inductive Outcome
  | ok
  /-- An `Exception`. -/
  | error
  /-- A control exception. -/
  | control
  /-- A signal after the admission of a lease, or before it is given back. -/
  | lost
  /-- A signal when so many handles have been closed. -/
  | attempted (n : ℕ)
deriving DecidableEq

inductive Label
  | connect (thread : ℕ)
  /-- An operation, in `_lease_generation`. -/
  | operation (thread : ℕ) (lost : Bool)
  /-- A health probe, in `_lease_existing_generation`. -/
  | probe (thread : ℕ) (lost : Bool)
  | disconnect (thread : ℕ) (signal : Option Stop)
  /-- A call goes on; the mode is that of the connection plan. -/
  | act (n : ℕ) (mode : Mode) (outcome : Outcome)
deriving DecidableEq

namespace State

def new : State := ⟨none, .none, fun _ ↦ ⟨.none, false, 0⟩, 0, 0, false, none, false, 0, fun _ ↦ 0, []⟩

/-- `_lease_local.depth` -/
def leaseDepth (s : State) (thread : ℕ) : ℕ :=
  s.calls.countP fun c ↦ c.thread = thread && c.stage.isLeased

/-- `_connect_local.depth` -/
def connectDepth (s : State) (thread : ℕ) : ℕ :=
  s.calls.countP fun c ↦ c.thread = thread && c.stage.isConnecting

def start (s : State) (thread : ℕ) (stage : Stage) : State :=
  { s with calls := s.calls ++ [⟨thread, s.lifecycleEpoch, stage⟩] }

/-- A call goes to another stage. -/
def goto (s : State) (n : ℕ) (c : Call) (stage : Stage) : State :=
  { s with calls := s.calls.set n { c with stage } }

def modify (s : State) (g : ℕ) (f : Generation → Generation) : State :=
  { s with generations := Function.update s.generations g (f (s.generations g)) }

/-- The generation that can be leased. -/
def admits (s : State) : Option ℕ :=
  s.generation.filter fun g ↦ (s.generations g).accepting

/-- `active_leases += 1` -/
def lease (s : State) (g : ℕ) : State :=
  s.modify g fun r ↦ { r with activeLeases := r.activeLeases + 1 }

/-- `active_leases -= 1` -/
def unlease (s : State) (g : ℕ) : State :=
  s.modify g fun r ↦ { r with activeLeases := r.activeLeases - 1 }

/-- The stage behind the admission of a lease. -/
def afterLease (g : ℕ) (lost : Bool) : Stage := if lost then .over else .leased g

/-- The first section of `connect`, behind its wait. -/
def afterWait (s : State) : Stage :=
  match s.generation with
  | some _ => .over
  | none => .requested .connect s.lifecycleEpoch

/-- The first section of `connect`. -/
def connect (s : State) (thread : ℕ) : State :=
  if s.disconnectOwner = some thread then s.start thread .over
  else if s.disconnecting then
    if 0 < s.leaseDepth thread then s.start thread .over else s.start thread .waiting
  else s.start thread s.afterWait

/-- The first section of `_lease_generation`. -/
def operation (s : State) (thread : ℕ) (lost : Bool) : State :=
  if s.disconnecting then s.start thread .over
  else
    match s.admits with
    | some g => (s.lease g).start thread (afterLease g lost)
    | none => s.start thread (.requested .operation s.lifecycleEpoch)

/-- The first section of `_lease_existing_generation`. -/
def probe (s : State) (thread : ℕ) (lost : Bool) : State :=
  if s.disconnecting then s.start thread .over
  else
    match s.admits with
    | some g => (s.lease g).start thread (afterLease g lost)
    | none => s.start thread .over

/-- `accepting` is cleared. -/
def fence (s : State) : State :=
  match s.generation with
  | none => s
  | some g => s.modify g fun r ↦ { r with accepting := false }

/-- What a disconnect is to close. -/
def detached (s : State) : Handles :=
  match s.generation with
  | some g => (s.generations g).handles
  | none => s.mirrors

/-- The first section of `disconnect`, up to its wait. -/
def disconnect (s : State) (thread : ℕ) (signal : Option Stop) : State :=
  if 0 < s.leaseDepth thread then s.start thread .over
  else if s.disconnectOwner = some thread then s.start thread .over
  else if s.disconnecting then s.start thread .following
  else
    -- the disconnect has begun
    let t := { s.start thread .lowering with
      disconnectOwner := some thread
      disconnecting := true
      lifecycleEpoch := s.lifecycleEpoch + 1 }
    match signal with
    | some .raised => t
    | some .fenced => t.fence
    | some .cleared => { t.fence with generation := none }
    | some .detached => { t.fence with generation := none, mirrors := .none }
    | none =>
      { t.fence with
        generation := none
        mirrors := .none
        calls := s.calls ++ [⟨thread, s.lifecycleEpoch, .draining s.generation s.detached⟩] }

/-- Whether a candidate for an epoch is stale. -/
def stale (s : State) (epoch : ℕ) : Bool := epoch ≠ s.lifecycleEpoch || s.disconnecting

/-- `_connect_for_epoch` returns, and the lock is released. -/
def leave (s : State) (n : ℕ) (c : Call) (p : Purpose) (epoch : ℕ) (connected : Bool) : State :=
  { s with connectLock := false }.goto n c
    (match p with
    | .connect => .over
    | .operation => .resuming epoch connected)

/-- `_connect_for_epoch` raises. -/
def abandon (s : State) (n : ℕ) (c : Call) : State := { s with connectLock := false }.goto n c .over

/-- The section of `_connect_for_epoch`, and the connection plan. -/
def plan (s : State) (n : ℕ) (c : Call) (p : Purpose) (epoch : ℕ) (mode : Mode) (outcome : Outcome) : State :=
  if s.stale epoch then s.leave n c p epoch false
  else if s.generation.isSome then s.leave n c p epoch true
  else if outcome = .ok then s.goto n c (.building p epoch .none mode.script)
  else s.abandon n c

/-- The exception that an outcome is. -/
def Outcome.failure : Outcome → Failure
  | .error => .error
  | _ => .control

/-- The candidate is published. When `notify_all` raises, the assignments are rolled back. -/
def publish (s : State) (n : ℕ) (c : Call) (p : Purpose) (epoch : ℕ) (h : Handles) (outcome : Outcome) :
    State :=
  if s.stale epoch || s.generation.isSome then s.goto n c (.discarding p epoch h .cancelled)
  else if outcome = .ok then
    { s with
      generation := some s.count
      mirrors := h
      generations := Function.update s.generations s.count ⟨h, true, 0⟩
      count := s.count + 1 }.leave n c p epoch true
  else { s with mirrors := .none }.goto n c (.discarding p epoch h (Outcome.failure outcome))

/-- A statement of `_build_and_publish_generation`. -/
def perform (s : State) (n : ℕ) (c : Call) (p : Purpose) (epoch : ℕ) (h : Handles) (outcome : Outcome) :
    List Action → State
  | [] => s.goto n c (.discarding p epoch h .error)
  | .check :: rest =>
    if s.stale epoch || s.generation.isSome then s.goto n c (.discarding p epoch h .cancelled)
    else if outcome = .ok then s.goto n c (.building p epoch h rest)
    else s.goto n c (.discarding p epoch h (Outcome.failure outcome))
  | .construct target :: rest =>
    if outcome = .ok then
      { s with built := s.built + 1 }.goto n c (.building p epoch (h.assign s.built target) rest)
    else s.goto n c (.discarding p epoch h (Outcome.failure outcome))
  | .ping :: rest =>
    if outcome = .ok then s.goto n c (.building p epoch h rest)
    else s.goto n c (.discarding p epoch h (Outcome.failure outcome))
  | .publish :: _ => s.publish n c p epoch h outcome

/-- `_close_handles`: `close` of each handle is run, whether it raises or not. -/
def close (s : State) (h : Handles) (outcome : Outcome) : State :=
  let run := match outcome with
    | .attempted k => h.distinct.take k
    | _ => h.distinct
  { s with closes := fun i ↦ s.closes i + run.count i }

/-- The last section of `_lease_generation`. -/
def resume (s : State) (n : ℕ) (c : Call) (epoch : ℕ) (connected : Bool) (outcome : Outcome) : State :=
  if connected = false || s.stale epoch then s.goto n c .over
  else
    match s.admits with
    | some g => (s.lease g).goto n c (afterLease g (outcome = .lost))
    | none => s.goto n c .over

/-- The end of a lease. -/
def release (s : State) (n : ℕ) (c : Call) (g : ℕ) (outcome : Outcome) : State :=
  if outcome = .lost then s.goto n c .over
  else (s.unlease g).goto n c .over

/-- A call goes on. -/
def act (s : State) (n : ℕ) (c : Call) (mode : Mode) (outcome : Outcome) : Option State :=
  match c.stage with
  | .waiting =>
    if outcome ≠ .ok then some (s.goto n c .over)
    else if s.disconnecting then none
    else some (s.goto n c s.afterWait)
  | .requested p epoch =>
    if 0 < s.connectDepth c.thread then some (s.goto n c .over) else some (s.goto n c (.queued p epoch))
  | .queued p epoch =>
    if outcome ≠ .ok then some (s.goto n c .over)
    else if s.connectLock then none
    else some ({ s with connectLock := true }.goto n c (.locked p epoch))
  | .locked p epoch => some (s.plan n c p epoch mode outcome)
  | .building p epoch h rest => some (s.perform n c p epoch h outcome rest)
  | .discarding p epoch h why => some ((s.close h outcome).goto n c (.failed p epoch why))
  | .failed p epoch why =>
    if why = .cancelled ∨ why = .error ∧ s.stale epoch then some (s.leave n c p epoch false)
    else some (s.abandon n c)
  | .resuming epoch connected => some (s.resume n c epoch connected outcome)
  | .leased g => some (s.release n c g outcome)
  | .draining g h =>
    -- an exception out of the wait is kept for later
    if outcome ≠ .ok then some s
    else if g.any fun g ↦ 0 < (s.generations g).activeLeases then none
    else some (s.goto n c (.closing h))
  | .closing h => some ((s.close h outcome).goto n c .lowering)
  | .lowering => some ({ s with disconnecting := false, disconnectOwner := none }.goto n c .over)
  | .following =>
    if outcome ≠ .ok then some (s.goto n c .over)
    else if s.disconnecting then none
    else some (s.goto n c .over)
  | .over => none

/-- One step. -/
def step (s : State) : Label → Option State
  | .connect thread => some (s.connect thread)
  | .operation thread lost => some (s.operation thread lost)
  | .probe thread lost => some (s.probe thread lost)
  | .disconnect thread signal => some (s.disconnect thread signal)
  | .act n mode outcome => s.calls[n]?.bind fun c ↦ s.act n c mode outcome

end State

/-- The backend as a machine. -/
def machine : Machine State Label where
  init := State.new
  step := State.step

/-! ## Handles -/

namespace Handles

variable {h : Handles} {i j : ℕ} {target : Target}

theorem mem_distinct : i ∈ h.distinct ↔ h.client = some i ∨ h.masterClient = some i ∨ h.sentinel = some i := by
  simp [distinct]

theorem count_distinct : h.distinct.count i = if i ∈ h.distinct then 1 else 0 :=
  (List.nodup_dedup _).count

@[simp] theorem distinct_none : none.distinct = [] := rfl

/-- Nothing is assigned there yet. -/
def Free (h : Handles) : Target → Prop
  | .client => h.client = .none
  | .both => h.client = .none ∧ h.masterClient = .none
  | .sentinel => h.sentinel = .none

theorem mem_assign (hfree : h.Free target) : j ∈ (h.assign i target).distinct ↔ j ∈ h.distinct ∨ j = i := by
  cases target with
  | client =>
    have hclient : h.client = .none := hfree
    simp only [mem_distinct, assign, hclient, Option.some.injEq, reduceCtorEq, false_or]
    rw [or_comm, eq_comm (a := i)]
  | both =>
    obtain ⟨hclient, hmaster⟩ : h.client = .none ∧ h.masterClient = .none := hfree
    simp only [mem_distinct, assign, hclient, hmaster, Option.some.injEq, reduceCtorEq, false_or]
    rw [← or_assoc, or_self, or_comm, eq_comm (a := i)]
  | sentinel =>
    have hsentinel : h.sentinel = .none := hfree
    simp only [mem_distinct, assign, hsentinel, Option.some.injEq, reduceCtorEq, or_false]
    rw [or_assoc, eq_comm (a := i)]

/-- A new object is one more. -/
theorem count_assign (hfree : h.Free target) (hi : i ∉ h.distinct) (j : ℕ) :
    (h.assign i target).distinct.count j = h.distinct.count j + if j = i then 1 else 0 := by
  simp only [count_distinct, mem_assign hfree]
  by_cases hj : j = i
  · subst hj
    simp [hi]
  · simp [hj]

/-- The constructors of a script are each assigned to a free place. -/
def Ready : Handles → List Action → Prop
  | _, [] => True
  | h, .construct target :: rest => h.Free target ∧ ∀ i, Ready (h.assign i target) rest
  | h, .check :: rest | h, .ping :: rest | h, .publish :: rest => Ready h rest

theorem ready_script (mode : Mode) : Ready .none mode.script := by
  cases mode <;> simp [Mode.script, Ready, Free, assign, none]

end Handles

/-! ## What holds between steps -/

namespace State

/-- In how many calls an object is. -/
def held (s : State) (i : ℕ) : ℕ := (s.calls.map fun c ↦ c.stage.handles.distinct.count i).sum

/-- Whether an object is published. -/
def published (s : State) (i : ℕ) : ℕ :=
  match s.generation with
  | none => 0
  | some g => (s.generations g).handles.distinct.count i

/-- The active leases of a generation. -/
def leases (s : State) (g : ℕ) : ℕ := s.calls.countP fun c ↦ c.stage.leases g

/-- The disconnects that wait for the leases of a generation. -/
def drains (s : State) (g : ℕ) : ℕ := s.calls.countP fun c ↦ c.stage.drains g

/-- What a call has to do with the generations. -/
structure Fits (s : State) (stage : Stage) : Prop where
  ready : ∀ p e h rest, stage = .building p e h rest → h.Ready rest
  drains : ∀ g h, stage = .draining (some g) h → g < s.count ∧ h = (s.generations g).handles

structure Inv (s : State) : Prop where
  mirrors : s.mirrors = match s.generation with
    | none => .none
    | some g => (s.generations g).handles
  current : ∀ g, s.generation = some g → g < s.count
  /-- An object that was built is published, or in a call, or closed. -/
  owned : ∀ i, s.published i + s.held i + s.closes i = if i < s.built then 1 else 0
  leases : ∀ g, s.leases g ≤ (s.generations g).activeLeases
  /-- A generation that nobody waits for has no leases. -/
  retired : ∀ g, s.generation ≠ some g → s.drains g = 0 → (s.generations g).activeLeases = 0
  calls : ∀ c ∈ s.calls, s.Fits c.stage

variable {s t : State} {n : ℕ} {c : Call} {b : Stage}

theorem Fits.of_not {stage : Stage} (hb : ∀ p e h rest, stage ≠ .building p e h rest)
    (hd : ∀ g h, stage ≠ .draining (some g) h) : s.Fits stage :=
  ⟨fun p e h rest hs ↦ absurd hs (hb p e h rest), fun g h hs ↦ absurd hs (hd g h)⟩

/-- Generations stay what they are. -/
theorem Fits.congr {stage : Stage} (h : s.Fits stage) (hcount : s.count ≤ t.count)
    (hhandles : ∀ g < s.count, (t.generations g).handles = (s.generations g).handles) : t.Fits stage := by
  refine ⟨h.ready, ?_⟩
  intro g x hx
  obtain ⟨hlt, rfl⟩ := h.drains g x hx
  exact ⟨hlt.trans_le hcount, (hhandles g hlt).symm⟩

theorem Inv.new : State.new.Inv where
  mirrors := rfl
  current := nofun
  owned i := by
    change 0 = if i < 0 then 1 else 0
    rw [if_neg (Nat.not_lt_zero i)]
  leases g := Nat.zero_le _
  retired g _ _ := rfl
  calls := nofun

/-! ## Frames -/

theorem held_start (s : State) (thread i : ℕ) (b : Stage) :
    (s.start thread b).held i = s.held i + b.handles.distinct.count i := by
  simp [held, start]

theorem leases_start (s : State) (thread g : ℕ) (b : Stage) :
    (s.start thread b).leases g = s.leases g + (b.leases g).toNat := List.countP_concat _ _ _

theorem drains_start (s : State) (thread g : ℕ) (b : Stage) :
    (s.start thread b).drains g = s.drains g + (b.drains g).toNat := List.countP_concat _ _ _

theorem held_goto (hn : s.calls[n]? = some c) (b : Stage) (i : ℕ) :
    (s.goto n c b).held i + c.stage.handles.distinct.count i = s.held i + b.handles.distinct.count i :=
  List.sum_map_set_add (fun c : Call ↦ c.stage.handles.distinct.count i) hn

theorem leases_goto (hn : s.calls[n]? = some c) (b : Stage) (g : ℕ) :
    (s.goto n c b).leases g + (c.stage.leases g).toNat = s.leases g + (b.leases g).toNat :=
  List.countP_set_add (fun c : Call ↦ c.stage.leases g) hn

theorem drains_goto (hn : s.calls[n]? = some c) (b : Stage) (g : ℕ) :
    (s.goto n c b).drains g + (c.stage.drains g).toNat = s.drains g + (b.drains g).toNat :=
  List.countP_set_add (fun c : Call ↦ c.stage.drains g) hn

/-- A stage that holds nothing, leases nothing and drains nothing. -/
structure Idle (stage : Stage) : Prop where
  handles : stage.handles = .none
  leases : ∀ g, stage.leases g = false
  drains : ∀ g, stage.drains g = false
  building : ∀ p e h rest, stage ≠ .building p e h rest
  draining : ∀ g h, stage ≠ .draining (some g) h

theorem Idle.fits (h : Idle b) : s.Fits b := .of_not h.building h.draining

/-- A call starts that has nothing yet. -/
theorem Inv.start (hi : s.Inv) (hb : Idle b) (thread : ℕ) : (s.start thread b).Inv where
  mirrors := hi.mirrors
  current := hi.current
  owned i := by
    have := hi.owned i
    rw [held_start, hb.handles]
    exact this
  leases g := by
    rw [leases_start, hb.leases]
    exact hi.leases g
  retired g hg hd := by
    rw [drains_start, hb.drains] at hd
    exact hi.retired g hg hd
  calls := by
    intro c hc
    rcases List.mem_append.mp hc with hc | hc
    · exact (hi.calls c hc).congr le_rfl fun _ _ ↦ rfl
    · obtain rfl : c = ⟨thread, s.lifecycleEpoch, b⟩ := by simpa using hc
      exact hb.fits

/-- A call goes on with what it has. -/
theorem Inv.goto (hi : s.Inv) (hn : s.calls[n]? = some c)
    (hhandles : ∀ i, b.handles.distinct.count i = c.stage.handles.distinct.count i)
    (hleases : ∀ g, b.leases g = c.stage.leases g) (hdrains : ∀ g, b.drains g = c.stage.drains g)
    (hfits : s.Fits b) : (s.goto n c b).Inv where
  mirrors := hi.mirrors
  current := hi.current
  owned i := by
    have := hi.owned i
    have hheld := held_goto hn b i
    rw [hhandles] at hheld
    have hpublished : (s.goto n c b).published i = s.published i := rfl
    have hcloses : (s.goto n c b).closes i = s.closes i := rfl
    rw [hpublished, hcloses]
    change _ = if i < s.built then 1 else 0
    omega
  leases g := by
    have := hi.leases g
    have hcount := leases_goto hn b g
    rw [hleases] at hcount
    change _ ≤ (s.generations g).activeLeases
    omega
  retired g hg hd := by
    have hcount := drains_goto hn b g
    rw [hdrains] at hcount
    exact hi.retired g hg (by omega)
  calls := by
    intro x hx
    rcases List.mem_or_eq_of_mem_set hx with hx | rfl
    · exact (hi.calls x hx).congr le_rfl fun _ _ ↦ rfl
    · exact hfits.congr le_rfl fun _ _ ↦ rfl

/-- The locks and the epoch do not matter here. -/
theorem Inv.of_eq (hi : s.Inv) (hgeneration : t.generation = s.generation) (hmirrors : t.mirrors = s.mirrors)
    (hgenerations : t.generations = s.generations) (hcount : t.count = s.count) (hbuilt : t.built = s.built)
    (hcloses : t.closes = s.closes) (hcalls : t.calls = s.calls) : t.Inv := by
  obtain ⟨_, _, _, _, _, _, _, _, _, _, _⟩ := t
  dsimp only at hgeneration hmirrors hgenerations hcount hbuilt hcloses hcalls
  subst hgeneration hmirrors hgenerations hcount hbuilt hcloses hcalls
  refine ⟨hi.mirrors, hi.current, hi.owned, hi.leases, hi.retired, ?_⟩
  intro c hc
  exact (hi.calls c hc).congr le_rfl fun _ _ ↦ rfl

/-- A step that publishes and detaches nothing. -/
theorem Inv.of_counts (hi : s.Inv) (hgeneration : t.generation = s.generation) (hmirrors : t.mirrors = s.mirrors)
    (hcount : t.count = s.count) (hhandles : ∀ g, (t.generations g).handles = (s.generations g).handles)
    (howned : ∀ i, s.published i + t.held i + t.closes i = if i < t.built then 1 else 0)
    (hleases : ∀ g, t.leases g ≤ (t.generations g).activeLeases)
    (hretired : ∀ g, s.generation ≠ some g → t.drains g = 0 → (t.generations g).activeLeases = 0)
    (hcalls : ∀ c ∈ t.calls, s.Fits c.stage) : t.Inv where
  mirrors := by
    rw [hmirrors, hgeneration, hi.mirrors]
    cases s.generation with
    | none => rfl
    | some g => exact (hhandles g).symm
  current := by
    rw [hgeneration, hcount]
    exact hi.current
  owned i := by
    rw [← howned i]
    congr 2
    rw [published, published, hgeneration]
    cases s.generation with
    | none => rfl
    | some g => exact congrArg (fun h ↦ h.distinct.count i) (hhandles g)
  leases := hleases
  retired := by
    rw [hgeneration]
    exact hretired
  calls c hc := (hcalls c hc).congr hcount.ge fun g _ ↦ hhandles g

/-! ## Leases -/

theorem admits_eq_some {g : ℕ} (h : s.admits = some g) :
    s.generation = some g ∧ (s.generations g).accepting = true := by
  rw [admits, Option.filter_eq_some_iff] at h
  exact h

theorem handles_lease (s : State) (g j : ℕ) :
    ((s.lease g).generations j).handles = (s.generations j).handles := by
  by_cases hj : j = g
  · subst hj
    simp [lease, modify]
  · simp [lease, modify, hj]

theorem handles_unlease (s : State) (g j : ℕ) :
    ((s.unlease g).generations j).handles = (s.generations j).handles := by
  by_cases hj : j = g
  · subst hj
    simp [unlease, modify]
  · simp [unlease, modify, hj]

theorem activeLeases_unlease (s : State) (g j : ℕ) :
    ((s.unlease g).generations j).activeLeases = (s.generations j).activeLeases - if j = g then 1 else 0 := by
  by_cases hj : j = g
  · subst hj
    simp [unlease, modify]
  · simp [unlease, modify, hj]

theorem activeLeases_lease (s : State) (g j : ℕ) :
    ((s.lease g).generations j).activeLeases = (s.generations j).activeLeases + if j = g then 1 else 0 := by
  by_cases hj : j = g
  · subst hj
    simp [lease, modify]
  · simp [lease, modify, hj]

theorem leases_afterLease (g j : ℕ) (lost : Bool) :
    ((afterLease g lost).leases j).toNat ≤ if j = g then 1 else 0 := by
  cases lost with
  | true => exact Nat.zero_le _
  | false =>
    by_cases hj : j = g
    · simp [afterLease, Stage.leases, hj]
    · have hne : ¬ g = j := fun h ↦ hj h.symm
      simp [afterLease, Stage.leases, hj, hne]

theorem handles_afterLease (g : ℕ) (lost : Bool) : (afterLease g lost).handles = .none := by
  cases lost <;> rfl

theorem drains_afterLease (g j : ℕ) (lost : Bool) : (afterLease g lost).drains j = false := by
  cases lost <;> rfl

theorem fits_afterLease (g : ℕ) (lost : Bool) : s.Fits (afterLease g lost) := by
  cases lost <;> exact .of_not nofun nofun

/-- A lease of the current generation, for a new call. -/
theorem Inv.lease_start (hi : s.Inv) {g : ℕ} (hg : s.generation = some g) (thread : ℕ) (lost : Bool) :
    ((s.lease g).start thread (afterLease g lost)).Inv := by
  refine hi.of_counts rfl rfl rfl (handles_lease s g) ?_ ?_ ?_ ?_
  · intro i
    rw [held_start, handles_afterLease]
    exact hi.owned i
  · intro j
    have hold := hi.leases j
    have hnew := leases_afterLease g j lost
    rw [leases_start]
    change s.leases j + _ ≤ ((s.lease g).generations j).activeLeases
    rw [activeLeases_lease]
    omega
  · intro j hj hd
    rw [drains_start, drains_afterLease] at hd
    have hne : j ≠ g := fun h ↦ hj (h ▸ hg)
    change ((s.lease g).generations j).activeLeases = 0
    rw [activeLeases_lease, if_neg hne]
    exact hi.retired j hj hd
  · intro c hc
    rcases List.mem_append.mp hc with hc | hc
    · exact hi.calls c hc
    · obtain rfl : c = ⟨thread, s.lifecycleEpoch, afterLease g lost⟩ := List.mem_singleton.mp hc
      exact fits_afterLease g lost

/-- A lease of the current generation, for a call that has connected. -/
theorem Inv.lease_goto (hi : s.Inv) {g : ℕ} (hg : s.generation = some g) (hn : s.calls[n]? = some c)
    (hidle : Idle c.stage) (lost : Bool) : ((s.lease g).goto n c (afterLease g lost)).Inv := by
  refine hi.of_counts rfl rfl rfl (handles_lease s g) ?_ ?_ ?_ ?_
  · intro i
    have hheld : ((s.lease g).goto n c (afterLease g lost)).held i + _ = (s.lease g).held i + _ :=
      held_goto hn (afterLease g lost) i
    rw [hidle.handles, handles_afterLease] at hheld
    have hsame : ((s.lease g).goto n c (afterLease g lost)).held i = s.held i := Nat.add_right_cancel hheld
    rw [hsame]
    exact hi.owned i
  · intro j
    have hold := hi.leases j
    have hnew := leases_afterLease g j lost
    have hcount : ((s.lease g).goto n c (afterLease g lost)).leases j + _ = (s.lease g).leases j + _ :=
      leases_goto hn (afterLease g lost) j
    rw [hidle.leases] at hcount
    have hsame : (s.lease g).leases j = s.leases j := rfl
    change _ ≤ ((s.lease g).generations j).activeLeases
    rw [activeLeases_lease]
    rw [hsame] at hcount
    omega
  · intro j hj hd
    have hcount : ((s.lease g).goto n c (afterLease g lost)).drains j + _ = (s.lease g).drains j + _ :=
      drains_goto hn (afterLease g lost) j
    rw [hidle.drains, drains_afterLease] at hcount
    have hne : j ≠ g := fun h ↦ hj (h ▸ hg)
    change ((s.lease g).generations j).activeLeases = 0
    rw [activeLeases_lease, if_neg hne]
    refine hi.retired j hj ?_
    have hsame : (s.lease g).drains j = s.drains j := rfl
    omega
  · intro x hx
    rcases List.mem_or_eq_of_mem_set hx with hx | rfl
    · exact hi.calls x hx
    · exact fits_afterLease g lost

/-- The end of a lease. -/
theorem Inv.release (hi : s.Inv) {g : ℕ} (hn : s.calls[n]? = some c) (hc : c.stage = .leased g)
    (outcome : Outcome) : (s.release n c g outcome).Inv := by
  have hleased : ∀ j, (c.stage.leases j).toNat = if j = g then 1 else 0 := by
    intro j
    rw [hc, Stage.leases]
    by_cases hj : j = g
    · simp [hj]
    · have hne : ¬ g = j := fun h ↦ hj h.symm
      simp [hj, hne]
  have hhandles : c.stage.handles = .none := by rw [hc]; rfl
  have hdrains : ∀ j, c.stage.drains j = false := by intro j; rw [hc]; rfl
  -- the counts do not depend on the records
  have hheld : ∀ i, (s.goto n c .over).held i = s.held i := by
    intro i
    have := held_goto hn .over i
    rw [hhandles] at this
    exact Nat.add_right_cancel this
  have hcount : ∀ j, (s.goto n c .over).leases j + (if j = g then 1 else 0) = s.leases j := by
    intro j
    have := leases_goto hn .over j
    rw [hleased] at this
    exact this
  have hdrained : ∀ j, (s.goto n c .over).drains j = s.drains j := by
    intro j
    have := drains_goto hn .over j
    rw [hdrains] at this
    exact Nat.add_right_cancel this
  have hfits : ∀ x ∈ (s.goto n c .over).calls, s.Fits x.stage := by
    intro x hx
    rcases List.mem_or_eq_of_mem_set hx with hx | rfl
    · exact hi.calls x hx
    · exact .of_not nofun nofun
  unfold State.release
  split_ifs with hlost
  · refine hi.of_counts rfl rfl rfl (fun _ ↦ rfl) ?_ ?_ ?_ hfits
    · intro i
      rw [hheld]
      exact hi.owned i
    · intro j
      have := hi.leases j
      have := hcount j
      change _ ≤ (s.generations j).activeLeases
      omega
    · intro j hj hd
      rw [hdrained] at hd
      exact hi.retired j hj hd
  · refine hi.of_counts rfl rfl rfl (handles_unlease s g) ?_ ?_ ?_ hfits
    · intro i
      have hsame := hheld i
      change s.published i + (s.goto n c .over).held i + s.closes i = _
      rw [hsame]
      exact hi.owned i
    · intro j
      have := hi.leases j
      have := hcount j
      change (s.goto n c .over).leases j ≤ ((s.unlease g).generations j).activeLeases
      rw [activeLeases_unlease]
      omega
    · intro j hj hd
      change (s.goto n c .over).drains j = 0 at hd
      rw [hdrained] at hd
      change ((s.unlease g).generations j).activeLeases = 0
      rw [activeLeases_unlease, hi.retired j hj hd, Nat.zero_sub]

/-! ## Clients -/

/-- The clients of a call are closed, each once. -/
theorem Inv.close (hi : s.Inv) (hn : s.calls[n]? = some c) (hleases : ∀ g, c.stage.leases g = false)
    (hdrains : ∀ g, c.stage.drains g = false) (hb : Idle b) {outcome : Outcome}
    (hattempted : ∀ k, outcome ≠ .attempted k) :
    ((s.close c.stage.handles outcome).goto n c b).Inv := by
  have hcloses : (s.close c.stage.handles outcome).closes =
      fun i ↦ s.closes i + c.stage.handles.distinct.count i := by
    unfold State.close
    cases outcome with
    | attempted k => exact absurd rfl (hattempted k)
    | _ => rfl
  refine hi.of_counts rfl rfl rfl (fun _ ↦ rfl) ?_ ?_ ?_ ?_
  · intro i
    have hheld := held_goto hn b i
    rw [hb.handles] at hheld
    have hsame : ((s.close c.stage.handles outcome).goto n c b).held i = (s.goto n c b).held i := rfl
    have hcount : ((s.close c.stage.handles outcome).goto n c b).closes i =
      s.closes i + c.stage.handles.distinct.count i := congrFun hcloses i
    rw [hsame, hcount]
    have howned := hi.owned i
    simp only [Handles.distinct_none, List.count_nil] at hheld
    change _ = if i < s.built then 1 else 0
    omega
  · intro g
    have hcount := leases_goto hn b g
    rw [hb.leases, hleases] at hcount
    have := hi.leases g
    change (s.goto n c b).leases g ≤ (s.generations g).activeLeases
    omega
  · intro g hg hd
    have hcount := drains_goto hn b g
    rw [hb.drains, hdrains] at hcount
    change (s.goto n c b).drains g = 0 at hd
    exact hi.retired g hg (by omega)
  · intro x hx
    rcases List.mem_or_eq_of_mem_set hx with hx | rfl
    · exact hi.calls x hx
    · exact hb.fits

/-- The leases are gone. -/
theorem Inv.drained (hi : s.Inv) {g : Option ℕ} {h : Handles} (hn : s.calls[n]? = some c)
    (hc : c.stage = .draining g h) (hactive : ∀ j, g = some j → (s.generations j).activeLeases = 0) :
    (s.goto n c (.closing h)).Inv := by
  refine hi.of_counts rfl rfl rfl (fun _ ↦ rfl) ?_ ?_ ?_ ?_
  · intro i
    have hheld := held_goto hn (.closing h) i
    rw [hc] at hheld
    have hsame : (s.goto n c (.closing h)).held i = s.held i := Nat.add_right_cancel hheld
    rw [hsame]
    exact hi.owned i
  · intro j
    have hcount := leases_goto hn (.closing h) j
    rw [hc] at hcount
    have hsame : (s.goto n c (.closing h)).leases j = s.leases j := Nat.add_right_cancel hcount
    rw [hsame]
    exact hi.leases j
  · intro j hj hd
    by_cases hg : g = some j
    · exact hactive j hg
    · have hcount := drains_goto hn (.closing h) j
      rw [hc] at hcount
      have hnot : (Stage.draining g h).drains j = false := decide_eq_false hg
      have hnot' : (Stage.closing h).drains j = false := rfl
      rw [hnot, hnot'] at hcount
      exact hi.retired j hj (by omega)
  · intro x hx
    rcases List.mem_or_eq_of_mem_set hx with hx | rfl
    · exact hi.calls x hx
    · exact .of_not nofun nofun

/-- An object that is not built is nowhere. -/
theorem Inv.count_built (hi : s.Inv) (hn : s.calls[n]? = some c) : s.built ∉ c.stage.handles.distinct := by
  intro hmem
  have howned := hi.owned s.built
  rw [if_neg (lt_irrefl _)] at howned
  have hle : c.stage.handles.distinct.count s.built ≤ s.held s.built :=
    List.le_sum_map (fun c : Call ↦ c.stage.handles.distinct.count s.built) hn
  have hpos := List.count_pos_iff.mpr hmem
  omega

theorem Inv.construct (hi : s.Inv) {p : Purpose} {e : ℕ} {h : Handles} {target : Target} {rest : List Action}
    (hn : s.calls[n]? = some c) (hc : c.stage = .building p e h (.construct target :: rest)) :
    ({ s with built := s.built + 1 }.goto n c (.building p e (h.assign s.built target) rest)).Inv := by
  obtain ⟨hfree, hready⟩ := (hi.calls c (List.mem_of_getElem? hn)).ready p e h _ hc
  have hnew : s.built ∉ h.distinct := by
    have := hi.count_built hn
    rw [hc] at this
    exact this
  refine hi.of_counts rfl rfl rfl (fun _ ↦ rfl) ?_ ?_ ?_ ?_
  · intro i
    have hheld := held_goto hn (.building p e (h.assign s.built target) rest) i
    rw [hc] at hheld
    have hassign := Handles.count_assign hfree hnew i
    simp only [Stage.handles, hassign] at hheld
    have howned := hi.owned i
    change s.published i + (s.goto n c _).held i + s.closes i = if i < s.built + 1 then 1 else 0
    by_cases hib : i = s.built
    · subst hib
      rw [if_pos rfl] at hheld
      rw [if_neg (lt_irrefl _)] at howned
      rw [if_pos (Nat.lt_succ_self _)]
      omega
    · rw [if_neg hib] at hheld
      have hiff : i < s.built + 1 ↔ i < s.built := by omega
      simp only [hiff]
      omega
  · intro g
    have hcount := leases_goto hn (.building p e (h.assign s.built target) rest) g
    rw [hc] at hcount
    have hsame : (s.goto n c (.building p e (h.assign s.built target) rest)).leases g = s.leases g :=
      Nat.add_right_cancel hcount
    exact hsame.trans_le (hi.leases g)
  · intro g hg hd
    have hcount := drains_goto hn (.building p e (h.assign s.built target) rest) g
    rw [hc] at hcount
    have hsame : (s.goto n c (.building p e (h.assign s.built target) rest)).drains g = s.drains g :=
      Nat.add_right_cancel hcount
    exact hi.retired g hg (hsame.symm.trans hd)
  · intro x hx
    rcases List.mem_or_eq_of_mem_set hx with hx | rfl
    · exact hi.calls x hx
    · refine ⟨?_, nofun⟩
      intro p' e' h' rest' heq
      obtain ⟨-, -, rfl, rfl⟩ := Stage.building.inj heq
      exact hready s.built

/-- The candidate is published. -/
theorem Inv.publish (hi : s.Inv) {p : Purpose} {e : ℕ} {h : Handles} {rest : List Action}
    (hn : s.calls[n]? = some c) (hc : c.stage = .building p e h rest) (hnone : s.generation = none)
    (hb : Idle b) :
    ({ s with
      generation := some s.count
      mirrors := h
      generations := Function.update s.generations s.count ⟨h, true, 0⟩
      count := s.count + 1
      connectLock := false }.goto n c b).Inv where
  mirrors := by simp [State.goto]
  current g hg := by
    obtain rfl := Option.some.inj hg
    exact Nat.lt_succ_self _
  owned i := by
    have hheld := held_goto hn b i
    rw [hc, hb.handles] at hheld
    simp only [Stage.handles, Handles.distinct_none, List.count_nil] at hheld
    have howned := hi.owned i
    have hpublished : s.published i = 0 := by rw [published, hnone]
    rw [hpublished] at howned
    simp only [published, State.goto, Function.update_self]
    change h.distinct.count i + (s.goto n c b).held i + s.closes i = if i < s.built then 1 else 0
    omega
  leases g := by
    have hcount := leases_goto hn b g
    rw [hc, hb.leases] at hcount
    have hsame : (s.goto n c b).leases g = s.leases g := Nat.add_right_cancel hcount
    change (s.goto n c b).leases g ≤ (Function.update s.generations s.count ⟨h, true, 0⟩ g).activeLeases
    rw [hsame]
    by_cases hg : g = s.count
    · -- the new generation was not leased before
      subst hg
      have hle := hi.leases s.count
      have hzero : (s.generations s.count).activeLeases = 0 := by
        refine hi.retired s.count (by rw [hnone]; exact nofun) ?_
        rw [drains, List.countP_eq_zero]
        intro x hx hd
        obtain ⟨g', h', hstage⟩ : ∃ g' h', x.stage = .draining g' h' := by
          cases hxs : x.stage with
          | draining g' h' => exact ⟨g', h', rfl⟩
          | _ =>
            rw [hxs] at hd
            cases hd
        rw [hstage] at hd
        have hg' : g' = some s.count := of_decide_eq_true hd
        have := ((hi.calls x hx).drains s.count h' (hg' ▸ hstage)).1
        omega
      rw [Function.update_self]
      omega
    · rw [Function.update_of_ne hg]
      exact hi.leases g
  retired g hg hd := by
    have hne : g ≠ s.count := fun heq ↦ hg (by rw [heq]; rfl)
    have hcount := drains_goto hn b g
    rw [hc, hb.drains] at hcount
    have hsame : (s.goto n c b).drains g = s.drains g := Nat.add_right_cancel hcount
    simp only [State.goto, Function.update_of_ne hne]
    refine hi.retired g (by rw [hnone]; exact nofun) (hsame.symm.trans hd)
  calls := by
    intro x hx
    rcases List.mem_or_eq_of_mem_set hx with hx | rfl
    · refine (hi.calls x hx).congr (Nat.le_succ _) ?_
      intro g hg
      change (Function.update s.generations s.count _ g).handles = _
      rw [Function.update_of_ne hg.ne]
    · exact hb.fits

/-- What is published is detached. -/
theorem Inv.detach (hi : s.Inv) (thread : ℕ) {t : State} (hgeneration : t.generation = none)
    (hmirrors : t.mirrors = .none) (hgenerations : t.generations = s.fence.generations)
    (hcount : t.count = s.count) (hbuilt : t.built = s.built) (hcloses : t.closes = s.closes)
    (hcalls : t.calls = s.calls ++ [⟨thread, s.lifecycleEpoch, .draining s.generation s.detached⟩]) : t.Inv := by
  have hfence : ∀ g, (t.generations g).handles = (s.generations g).handles ∧
      (t.generations g).activeLeases = (s.generations g).activeLeases := by
    intro g
    rw [hgenerations, fence]
    cases s.generation with
    | none => exact ⟨rfl, rfl⟩
    | some g' =>
      by_cases hg : g = g'
      · subst hg
        simp [modify]
      · simp [modify, hg]
  have hstart : ∀ f : Call → ℕ, (t.calls.map f).sum =
      (s.calls.map f).sum + f ⟨thread, s.lifecycleEpoch, .draining s.generation s.detached⟩ := by
    intro f
    rw [hcalls]
    simp
  have hdetached : ∀ i, s.detached.distinct.count i = s.published i := by
    intro i
    have hmirrors := hi.mirrors
    rw [detached, published]
    cases hg : s.generation with
    | none =>
      rw [hg] at hmirrors
      dsimp only at hmirrors ⊢
      rw [hmirrors]
      rfl
    | some g => rfl
  refine ⟨?_, ?_, ?_, ?_, ?_, ?_⟩
  · rw [hmirrors, hgeneration]
  · rw [hgeneration]
    exact nofun
  · intro i
    have hheld : t.held i = s.held i + s.detached.distinct.count i := hstart _
    have hpublished : t.published i = 0 := by rw [published, hgeneration]
    have howned := hi.owned i
    rw [hheld, hpublished, hcloses, hbuilt, hdetached, ← howned]
    omega
  · intro g
    have hleases : t.leases g = s.leases g := by
      rw [State.leases, hcalls, List.countP_concat]
      rfl
    rw [hleases, (hfence g).2]
    exact hi.leases g
  · intro g _ hd
    have hdrains : t.drains g = s.drains g + (decide (s.generation = some g)).toNat := by
      rw [State.drains, hcalls, List.countP_concat]
      rfl
    rw [hdrains] at hd
    rw [(hfence g).2]
    refine hi.retired g ?_ (by omega)
    intro hg
    rw [decide_eq_true hg] at hd
    simp at hd
  · intro x hx
    rw [hcalls] at hx
    rcases List.mem_append.mp hx with hx | hx
    · exact (hi.calls x hx).congr hcount.ge fun g _ ↦ (hfence g).1
    · obtain rfl := List.mem_singleton.mp hx
      refine ⟨nofun, ?_⟩
      intro g h heq
      obtain ⟨hg, rfl⟩ := Stage.draining.inj heq
      rw [hcount, (hfence g).1, detached, hg]
      exact ⟨hi.current g hg, rfl⟩

end State

/-! ## Steps -/

/-- A stage that has nothing to do with clients. -/
def Stage.isIdle : Stage → Bool
  | building .. | discarding .. | leased _ | draining .. | closing _ => false
  | _ => true

/-- Signals come out of calls only, or lose a lease. -/
def Label.handled : Label → Bool
  | .disconnect _ (some _) => false
  | .act _ _ (.attempted _) => false
  | _ => true

namespace State

variable {s t : State} {n : ℕ} {c : Call} {b : Stage}

theorem Idle.of_isIdle (hb : b.isIdle = true) : Idle b := by
  cases b <;> first
    | exact ⟨rfl, fun _ ↦ rfl, fun _ ↦ rfl, nofun, nofun⟩
    | cases hb

theorem Inv.goto_idle (hi : s.Inv) (hn : s.calls[n]? = some c) (hc : c.stage.isIdle = true)
    (hb : b.isIdle = true) : (s.goto n c b).Inv := by
  have hidle := Idle.of_isIdle hc
  have hidle' := Idle.of_isIdle hb
  refine hi.goto hn ?_ ?_ ?_ hidle'.fits
  · intro i
    rw [hidle.handles, hidle'.handles]
  · intro g
    rw [hidle.leases, hidle'.leases]
  · intro g
    rw [hidle.drains, hidle'.drains]

theorem Inv.lock (hi : s.Inv) (locked : Bool) : { s with connectLock := locked }.Inv :=
  hi.of_eq rfl rfl rfl rfl rfl rfl rfl

theorem isIdle_afterWait (s : State) : s.afterWait.isIdle = true := by
  unfold afterWait
  cases s.generation <;> rfl

theorem Inv.leave (hi : s.Inv) (hn : s.calls[n]? = some c) (hc : c.stage.isIdle = true) (p : Purpose) (e : ℕ)
    (connected : Bool) : (s.leave n c p e connected).Inv := by
  refine (hi.lock false).goto_idle hn hc ?_
  cases p <;> rfl

theorem Inv.abandon (hi : s.Inv) (hn : s.calls[n]? = some c) (hc : c.stage.isIdle = true) :
    (s.abandon n c).Inv := (hi.lock false).goto_idle hn hc rfl

/-- A candidate that goes on with the same clients. -/
theorem Inv.discard (hi : s.Inv) {p : Purpose} {e : ℕ} {h : Handles} {rest : List Action}
    (hn : s.calls[n]? = some c) (hc : c.stage = .building p e h rest) (why : Failure) :
    (s.goto n c (.discarding p e h why)).Inv := by
  refine hi.goto hn ?_ ?_ ?_ (.of_not nofun nofun)
  · intro i
    rw [hc]
    rfl
  · intro g
    rw [hc]
    rfl
  · intro g
    rw [hc]
    rfl

theorem Inv.proceed (hi : s.Inv) {p : Purpose} {e : ℕ} {h : Handles} {rest : List Action} {action : Action}
    (hn : s.calls[n]? = some c) (hc : c.stage = .building p e h (action :: rest))
    (haction : h.Ready (action :: rest) → h.Ready rest) : (s.goto n c (.building p e h rest)).Inv := by
  have hready := haction ((hi.calls c (List.mem_of_getElem? hn)).ready p e h _ hc)
  refine hi.goto hn ?_ ?_ ?_ ⟨?_, nofun⟩
  · intro i
    rw [hc]
    rfl
  · intro g
    rw [hc]
    rfl
  · intro g
    rw [hc]
    rfl
  · intro p' e' h' rest' heq
    obtain ⟨-, -, rfl, rfl⟩ := Stage.building.inj heq
    exact hready

theorem Inv.perform (hi : s.Inv) {p : Purpose} {e : ℕ} {h : Handles} {rest : List Action}
    (hn : s.calls[n]? = some c) (hc : c.stage = .building p e h rest) (outcome : Outcome) :
    (s.perform n c p e h outcome rest).Inv := by
  cases rest with
  | nil => exact hi.discard hn hc _
  | cons action rest =>
    cases action with
    | check =>
      simp only [State.perform]
      split_ifs
      · exact hi.discard hn hc _
      · exact hi.proceed hn hc id
      · exact hi.discard hn hc _
    | construct target =>
      simp only [State.perform]
      split_ifs
      · exact hi.construct hn hc
      · exact hi.discard hn hc _
    | ping =>
      simp only [State.perform]
      split_ifs
      · exact hi.proceed hn hc id
      · exact hi.discard hn hc _
    | publish =>
      simp only [State.perform, State.publish]
      split_ifs with hstale
      · exact hi.discard hn hc _
      · have hnone : s.generation = none := by
          rw [Bool.or_eq_true, not_or, Option.not_isSome_iff_eq_none] at hstale
          exact hstale.2
        refine hi.publish hn hc hnone (Idle.of_isIdle ?_)
        cases p <;> rfl
      · -- the mirrors were not set before
        have hnone : s.generation = none := by
          rw [Bool.or_eq_true, not_or, Option.not_isSome_iff_eq_none] at hstale
          exact hstale.2
        have hmirrors := hi.mirrors
        rw [hnone] at hmirrors
        have hi' : { s with mirrors := .none }.Inv := hi.of_eq rfl hmirrors.symm rfl rfl rfl rfl rfl
        exact hi'.discard hn hc _

theorem Inv.plan (hi : s.Inv) {p : Purpose} {e : ℕ} (hn : s.calls[n]? = some c) (hc : c.stage = .locked p e)
    (mode : Mode) (outcome : Outcome) : (s.plan n c p e mode outcome).Inv := by
  have hidle : c.stage.isIdle = true := by rw [hc]; rfl
  unfold State.plan
  split_ifs
  · exact hi.leave hn hidle p e false
  · exact hi.leave hn hidle p e true
  · refine hi.goto hn ?_ ?_ ?_ ⟨?_, nofun⟩
    · intro i
      rw [hc]
      rfl
    · intro g
      rw [hc]
      rfl
    · intro g
      rw [hc]
      rfl
    · intro p' e' h' rest' heq
      obtain ⟨-, -, rfl, rfl⟩ := Stage.building.inj heq
      exact Handles.ready_script mode
  · exact hi.abandon hn hidle

theorem Inv.resume (hi : s.Inv) {e : ℕ} {connected : Bool} (hn : s.calls[n]? = some c)
    (hc : c.stage = .resuming e connected) (outcome : Outcome) : (s.resume n c e connected outcome).Inv := by
  have hidle : c.stage.isIdle = true := by rw [hc]; rfl
  unfold State.resume
  split_ifs
  · exact hi.goto_idle hn hidle rfl
  · cases hg : s.admits with
    | none => exact hi.goto_idle hn hidle rfl
    | some g => exact hi.lease_goto (admits_eq_some hg).1 hn (Idle.of_isIdle hidle) _

theorem Inv.act (hi : s.Inv) (hn : s.calls[n]? = some c) {mode : Mode} {outcome : Outcome}
    (hattempted : ∀ k, outcome ≠ .attempted k) (hact : s.act n c mode outcome = some t) : t.Inv := by
  have hidle : ∀ {stage : Stage}, c.stage = stage → stage.isIdle = true → c.stage.isIdle = true :=
    fun h h' ↦ h ▸ h'
  cases hc : c.stage with
  | waiting =>
    simp only [State.act, hc] at hact
    split_ifs at hact <;> obtain rfl := Option.some.inj hact
    · exact hi.goto_idle hn (hidle hc rfl) rfl
    · exact hi.goto_idle hn (hidle hc rfl) s.isIdle_afterWait
  | requested p e =>
    simp only [State.act, hc] at hact
    split_ifs at hact <;> obtain rfl := Option.some.inj hact
    · exact hi.goto_idle hn (hidle hc rfl) rfl
    · exact hi.goto_idle hn (hidle hc rfl) rfl
  | queued p e =>
    simp only [State.act, hc] at hact
    split_ifs at hact <;> obtain rfl := Option.some.inj hact
    · exact hi.goto_idle hn (hidle hc rfl) rfl
    · exact (hi.lock true).goto_idle hn (hidle hc rfl) rfl
  | locked p e =>
    simp only [State.act, hc] at hact
    obtain rfl := Option.some.inj hact
    exact hi.plan hn hc mode outcome
  | building p e h rest =>
    simp only [State.act, hc] at hact
    obtain rfl := Option.some.inj hact
    exact hi.perform hn hc outcome
  | discarding p e h why =>
    simp only [State.act, hc] at hact
    obtain rfl := Option.some.inj hact
    have hclose := hi.close (b := .failed p e why) hn (by intro g; rw [hc]; rfl) (by intro g; rw [hc]; rfl)
      (Idle.of_isIdle rfl) hattempted
    rw [hc] at hclose
    exact hclose
  | failed p e why =>
    simp only [State.act, hc] at hact
    split_ifs at hact <;> obtain rfl := Option.some.inj hact
    · exact hi.leave hn (hidle hc rfl) p e false
    · exact hi.abandon hn (hidle hc rfl)
  | resuming e connected =>
    simp only [State.act, hc] at hact
    obtain rfl := Option.some.inj hact
    exact hi.resume hn hc outcome
  | leased g =>
    simp only [State.act, hc] at hact
    obtain rfl := Option.some.inj hact
    exact hi.release hn hc outcome
  | draining g h =>
    simp only [State.act, hc] at hact
    split_ifs at hact with hok hactive <;> obtain rfl := Option.some.inj hact
    · exact hi
    · refine hi.drained hn hc ?_
      rintro j rfl
      simpa using hactive
  | closing h =>
    simp only [State.act, hc] at hact
    obtain rfl := Option.some.inj hact
    have hclose := hi.close (b := .lowering) hn (by intro g; rw [hc]; rfl) (by intro g; rw [hc]; rfl)
      (Idle.of_isIdle rfl) hattempted
    rw [hc] at hclose
    exact hclose
  | lowering =>
    simp only [State.act, hc] at hact
    obtain rfl := Option.some.inj hact
    have hi' : { s with disconnecting := false, disconnectOwner := none }.Inv :=
      hi.of_eq rfl rfl rfl rfl rfl rfl rfl
    exact hi'.goto_idle hn (hidle hc rfl) rfl
  | following =>
    simp only [State.act, hc] at hact
    split_ifs at hact <;> obtain rfl := Option.some.inj hact
    · exact hi.goto_idle hn (hidle hc rfl) rfl
    · exact hi.goto_idle hn (hidle hc rfl) rfl
  | _ =>
    simp only [State.act, hc] at hact
    cases hact

theorem Inv.start_idle (hi : s.Inv) (hb : b.isIdle = true) (thread : ℕ) : (s.start thread b).Inv :=
  hi.start (Idle.of_isIdle hb) thread

/-- **Each step** keeps the invariant, as long as signals come out of calls only. -/
theorem Inv.step (hi : s.Inv) {label : Label} (hlabel : label.handled = true) (hstep : s.step label = some t) :
    t.Inv := by
  cases label with
  | connect thread =>
    obtain rfl := Option.some.inj hstep
    unfold State.connect
    split_ifs
    · exact hi.start_idle rfl thread
    · exact hi.start_idle rfl thread
    · exact hi.start_idle rfl thread
    · exact hi.start_idle s.isIdle_afterWait thread
  | operation thread lost =>
    obtain rfl := Option.some.inj hstep
    unfold State.operation
    split_ifs
    · exact hi.start_idle rfl thread
    · cases hg : s.admits with
      | none => exact hi.start_idle rfl thread
      | some g => exact hi.lease_start (admits_eq_some hg).1 thread lost
  | probe thread lost =>
    obtain rfl := Option.some.inj hstep
    unfold State.probe
    split_ifs
    · exact hi.start_idle rfl thread
    · cases hg : s.admits with
      | none => exact hi.start_idle rfl thread
      | some g => exact hi.lease_start (admits_eq_some hg).1 thread lost
  | disconnect thread signal =>
    obtain rfl := Option.some.inj hstep
    cases signal with
    | some stop => cases hlabel
    | none =>
      unfold State.disconnect
      split_ifs
      · exact hi.start_idle rfl thread
      · exact hi.start_idle rfl thread
      · exact hi.start_idle rfl thread
      · refine hi.detach thread rfl rfl ?_ ?_ ?_ ?_ rfl
        all_goals
          simp only [fence, State.start]
          cases s.generation <;> rfl
  | act n mode outcome =>
    obtain ⟨c, hn, hact⟩ := Option.bind_eq_some_iff.mp hstep
    refine hi.act hn ?_ hact
    rintro k rfl
    cases hlabel

/-! ## Epochs -/

end State

/-- Who the call is for. -/
def Stage.purpose : Stage → Option Purpose
  | requested p _ | queued p _ | locked p _ | building p _ _ _ | discarding p _ _ _ | failed p _ _ => some p
  | resuming .. => some .operation
  | _ => none

namespace State

variable {s t : State} {n : ℕ} {c : Call} {b : Stage}

/-- An operation goes by the epoch in which it began; a connect may have waited before it read one. -/
structure Dated (s : State) (c : Call) : Prop where
  since : c.since ≤ s.lifecycleEpoch
  epoch : ∀ e, c.stage.epoch = some e → c.since ≤ e
  operation : ∀ e, c.stage.epoch = some e → c.stage.purpose = some .operation → e = c.since

/-- A stage that goes by the same epoch, or by none. -/
def Follows (c : Call) (b : Stage) : Prop :=
  b.epoch = none ∨ (b.epoch = c.stage.epoch ∧ b.purpose = c.stage.purpose)

theorem Dated.goto (hd : s.Dated c) (hb : Follows c b) (hle : s.lifecycleEpoch ≤ t.lifecycleEpoch) :
    t.Dated { c with stage := b } := by
  refine ⟨hd.since.trans hle, ?_, ?_⟩
  · intro e he
    rcases hb with hnone | ⟨hepoch, -⟩
    · rw [hnone] at he
      cases he
    · exact hd.epoch e (hepoch ▸ he)
  · intro e he hp
    rcases hb with hnone | ⟨hepoch, hpurpose⟩
    · rw [hnone] at he
      cases he
    · exact hd.operation e (hepoch ▸ he) (hpurpose ▸ hp)

theorem Dated.congr (hd : s.Dated c) (hle : s.lifecycleEpoch ≤ t.lifecycleEpoch) : t.Dated c :=
  ⟨hd.since.trans hle, hd.epoch, hd.operation⟩

theorem dated_set (hs : ∀ c ∈ s.calls, s.Dated c) {d : Call} (hcalls : t.calls = s.calls.set n d)
    (hle : s.lifecycleEpoch ≤ t.lifecycleEpoch) (hd : t.Dated d) : ∀ c ∈ t.calls, t.Dated c := by
  intro x hx
  rw [hcalls] at hx
  rcases List.mem_or_eq_of_mem_set hx with hx | rfl
  · exact (hs x hx).congr hle
  · exact hd

theorem dated_start (hs : ∀ c ∈ s.calls, s.Dated c) {d : Call} (hcalls : t.calls = s.calls ++ [d])
    (hle : s.lifecycleEpoch ≤ t.lifecycleEpoch) (hd : t.Dated d) : ∀ c ∈ t.calls, t.Dated c := by
  intro x hx
  rw [hcalls] at hx
  rcases List.mem_append.mp hx with hx | hx
  · exact (hs x hx).congr hle
  · obtain rfl := List.mem_singleton.mp hx
    exact hd

/-- What a step does with the generations, for a call that goes by an epoch. -/
inductive Change (s t : State) (epoch : Option ℕ) : Prop
  | quiet (hgeneration : t.generation = s.generation) (hgenerations : t.generations = s.generations)
  | publishes (e : ℕ) (h : Handles) (hepoch : epoch = some e) (hfresh : s.stale e = false)
      (hnone : s.generation = none) (hgeneration : t.generation = some s.count)
      (hgenerations : t.generations = Function.update s.generations s.count ⟨h, true, 0⟩)
  | leases (e g : ℕ) (hepoch : epoch = some e) (hfresh : s.stale e = false) (hadmits : s.admits = some g)
      (hgeneration : t.generation = s.generation) (hgenerations : t.generations = (s.lease g).generations)
  | releases (g : ℕ) (hgeneration : t.generation = s.generation)
      (hgenerations : t.generations = (s.unlease g).generations)

/-- What a call may do when it goes on. -/
structure Moves (s : State) (n : ℕ) (c : Call) (t : State) : Prop where
  lifecycleEpoch : t.lifecycleEpoch = s.lifecycleEpoch
  calls : t.calls = s.calls ∨ ∃ b, t.calls = s.calls.set n { c with stage := b } ∧
    (Follows c b ∨ (c.stage = .waiting ∧ b = s.afterWait))
  change : Change s t c.stage.epoch

/-- A call goes on with the same epoch, and touches no generation. -/
theorem Moves.goto (hb : Follows c b) : Moves s n c (s.goto n c b) :=
  ⟨rfl, .inr ⟨b, rfl, .inl hb⟩, .quiet rfl rfl⟩

theorem Moves.leave {p : Purpose} {e : ℕ} (hc : c.stage.epoch = some e) (hp : c.stage.purpose = some p)
    (connected : Bool) : Moves s n c (s.leave n c p e connected) := by
  refine ⟨rfl, .inr ⟨_, rfl, .inl ?_⟩, .quiet rfl rfl⟩
  cases p with
  | connect => exact .inl rfl
  | operation => exact .inr ⟨hc.symm, hp.symm⟩

theorem perform_moves {p : Purpose} {e : ℕ} {h : Handles} {rest : List Action}
    (hc : c.stage = .building p e h rest) (outcome : Outcome) :
    Moves s n c (s.perform n c p e h outcome rest) := by
  have hepoch : c.stage.epoch = some e := by rw [hc]; rfl
  have hpurpose : c.stage.purpose = some p := by rw [hc]; rfl
  have hdiscard : ∀ why, Follows c (.discarding p e h why) := fun why ↦ .inr ⟨hepoch.symm, hpurpose.symm⟩
  have hbuilding : ∀ h' rest', Follows c (.building p e h' rest') :=
    fun h' rest' ↦ .inr ⟨hepoch.symm, hpurpose.symm⟩
  cases rest with
  | nil => exact .goto (hdiscard _)
  | cons action rest =>
    cases action with
    | check =>
      simp only [State.perform]
      split_ifs
      · exact .goto (hdiscard _)
      · exact .goto (hbuilding _ _)
      · exact .goto (hdiscard _)
    | construct target =>
      simp only [State.perform]
      split_ifs
      · exact ⟨rfl, .inr ⟨_, rfl, .inl (hbuilding _ _)⟩, .quiet rfl rfl⟩
      · exact .goto (hdiscard _)
    | ping =>
      simp only [State.perform]
      split_ifs
      · exact .goto (hbuilding _ _)
      · exact .goto (hdiscard _)
    | publish =>
      simp only [State.perform, State.publish]
      split_ifs with hstale
      · exact .goto (hdiscard _)
      · rw [Bool.or_eq_true, not_or, Option.not_isSome_iff_eq_none, Bool.not_eq_true] at hstale
        refine ⟨rfl, .inr ⟨_, rfl, .inl ?_⟩, .publishes e h hepoch hstale.1 hstale.2 rfl rfl⟩
        cases p with
        | connect => exact .inl rfl
        | operation => exact .inr ⟨hepoch.symm, hpurpose.symm⟩
      · exact ⟨rfl, .inr ⟨_, rfl, .inl (hdiscard _)⟩, .quiet rfl rfl⟩

theorem act_moves {mode : Mode} {outcome : Outcome} (hact : s.act n c mode outcome = some t) :
    Moves s n c t := by
  have hover : Follows c .over := .inl rfl
  cases hc : c.stage with
  | waiting =>
    simp only [State.act, hc] at hact
    split_ifs at hact <;> obtain rfl := Option.some.inj hact
    · exact .goto hover
    · exact ⟨rfl, .inr ⟨_, rfl, .inr ⟨hc, rfl⟩⟩, .quiet rfl rfl⟩
  | requested p e =>
    simp only [State.act, hc] at hact
    split_ifs at hact <;> obtain rfl := Option.some.inj hact
    · exact .goto hover
    · exact .goto (.inr (by rw [hc]; exact ⟨rfl, rfl⟩))
  | queued p e =>
    simp only [State.act, hc] at hact
    split_ifs at hact <;> obtain rfl := Option.some.inj hact
    · exact .goto hover
    · exact ⟨rfl, .inr ⟨_, rfl, .inl (.inr (by rw [hc]; exact ⟨rfl, rfl⟩))⟩, .quiet rfl rfl⟩
  | locked p e =>
    simp only [State.act, hc] at hact
    obtain rfl := Option.some.inj hact
    unfold State.plan
    split_ifs
    · exact .leave (by rw [hc]; rfl) (by rw [hc]; rfl) false
    · exact .leave (by rw [hc]; rfl) (by rw [hc]; rfl) true
    · exact .goto (.inr (by rw [hc]; exact ⟨rfl, rfl⟩))
    · exact ⟨rfl, .inr ⟨_, rfl, .inl hover⟩, .quiet rfl rfl⟩
  | building p e h rest =>
    simp only [State.act, hc] at hact
    obtain rfl := Option.some.inj hact
    exact perform_moves hc outcome
  | discarding p e h why =>
    simp only [State.act, hc] at hact
    obtain rfl := Option.some.inj hact
    exact ⟨rfl, .inr ⟨_, rfl, .inl (.inr (by rw [hc]; exact ⟨rfl, rfl⟩))⟩, .quiet rfl rfl⟩
  | failed p e why =>
    simp only [State.act, hc] at hact
    split_ifs at hact <;> obtain rfl := Option.some.inj hact
    · exact .leave (by rw [hc]; rfl) (by rw [hc]; rfl) false
    · exact ⟨rfl, .inr ⟨_, rfl, .inl hover⟩, .quiet rfl rfl⟩
  | resuming e connected =>
    simp only [State.act, hc] at hact
    obtain rfl := Option.some.inj hact
    unfold State.resume
    split_ifs with hstale
    · exact .goto hover
    · rw [Bool.or_eq_true, not_or, Bool.not_eq_true] at hstale
      cases hg : s.admits with
      | none => exact .goto hover
      | some g =>
        refine ⟨rfl, .inr ⟨_, rfl, .inl (.inl ?_)⟩,
          .leases e g (by rw [hc]; rfl) (Bool.eq_false_iff.mpr hstale.2) hg rfl rfl⟩
        unfold afterLease
        split_ifs <;> rfl
  | leased g =>
    simp only [State.act, hc] at hact
    obtain rfl := Option.some.inj hact
    unfold State.release
    split_ifs
    · exact .goto hover
    · exact ⟨rfl, .inr ⟨_, rfl, .inl hover⟩, .releases g rfl rfl⟩
  | draining g h =>
    simp only [State.act, hc] at hact
    split_ifs at hact <;> obtain rfl := Option.some.inj hact
    · exact ⟨rfl, .inl rfl, .quiet rfl rfl⟩
    · exact .goto (.inl rfl)
  | closing h =>
    simp only [State.act, hc] at hact
    obtain rfl := Option.some.inj hact
    exact ⟨rfl, .inr ⟨_, rfl, .inl (.inl rfl)⟩, .quiet rfl rfl⟩
  | lowering =>
    simp only [State.act, hc] at hact
    obtain rfl := Option.some.inj hact
    exact ⟨rfl, .inr ⟨_, rfl, .inl hover⟩, .quiet rfl rfl⟩
  | following =>
    simp only [State.act, hc] at hact
    split_ifs at hact <;> obtain rfl := Option.some.inj hact
    · exact .goto hover
    · exact .goto hover
  | _ =>
    simp only [State.act, hc] at hact
    cases hact

/-- A call that starts goes by the present epoch. -/
theorem dated_new {thread : ℕ} (hb : b.epoch = none ∨ b.epoch = some s.lifecycleEpoch)
    (hle : s.lifecycleEpoch ≤ t.lifecycleEpoch) : t.Dated ⟨thread, s.lifecycleEpoch, b⟩ := by
  have hepoch : ∀ e, b.epoch = some e → e = s.lifecycleEpoch := by
    intro e he
    rcases hb with hb | hb
    · rw [hb] at he
      cases he
    · exact Option.some.inj (he.symm.trans hb)
  exact ⟨hle, fun e he ↦ (hepoch e he).ge, fun e he _ ↦ hepoch e he⟩

theorem epoch_afterWait (s : State) :
    s.afterWait.epoch = none ∨ (s.afterWait.epoch = some s.lifecycleEpoch ∧
      s.afterWait.purpose = some .connect) := by
  unfold afterWait
  cases s.generation with
  | none => exact .inr ⟨rfl, rfl⟩
  | some g => exact .inl rfl

theorem epoch_afterLease (g : ℕ) (lost : Bool) : (afterLease g lost).epoch = none := by
  cases lost <;> rfl

theorem Dated.step (hs : ∀ c ∈ s.calls, s.Dated c) {label : Label} (hstep : s.step label = some t) :
    ∀ c ∈ t.calls, t.Dated c := by
  have hstart : ∀ thread b, (b.epoch = none ∨ b.epoch = some s.lifecycleEpoch) →
      ∀ c ∈ (s.start thread b).calls, (s.start thread b).Dated c :=
    fun thread b hb ↦ dated_start hs rfl le_rfl (dated_new hb le_rfl)
  have hlease : ∀ thread g lost, ∀ c ∈ ((s.lease g).start thread (afterLease g lost)).calls,
      ((s.lease g).start thread (afterLease g lost)).Dated c := by
    intro thread g lost
    exact dated_start hs rfl le_rfl (dated_new (s := s) (.inl (epoch_afterLease g lost)) le_rfl)
  cases label with
  | connect thread =>
    obtain rfl := Option.some.inj hstep
    unfold State.connect
    split_ifs
    · exact hstart thread _ (.inl rfl)
    · exact hstart thread _ (.inl rfl)
    · exact hstart thread _ (.inl rfl)
    · exact hstart thread _ (s.epoch_afterWait.imp_right And.left)
  | operation thread lost =>
    obtain rfl := Option.some.inj hstep
    unfold State.operation
    split_ifs
    · exact hstart thread _ (.inl rfl)
    · cases s.admits with
      | none => exact hstart thread _ (.inr rfl)
      | some g => exact hlease thread g lost
  | probe thread lost =>
    obtain rfl := Option.some.inj hstep
    unfold State.probe
    split_ifs
    · exact hstart thread _ (.inl rfl)
    · cases s.admits with
      | none => exact hstart thread _ (.inl rfl)
      | some g => exact hlease thread g lost
  | disconnect thread signal =>
    obtain rfl := Option.some.inj hstep
    unfold State.disconnect
    split_ifs
    · exact hstart thread _ (.inl rfl)
    · exact hstart thread _ (.inl rfl)
    · exact hstart thread _ (.inl rfl)
    · have hfence : ∀ u : State, u.fence.calls = u.calls ∧ u.fence.lifecycleEpoch = u.lifecycleEpoch := by
        intro u
        unfold fence
        cases u.generation <;> exact ⟨rfl, rfl⟩
      have hnew : ∀ {u : State} {b : Stage}, b.epoch = none → u.lifecycleEpoch = s.lifecycleEpoch + 1 →
          u.calls = s.calls ++ [⟨thread, s.lifecycleEpoch, b⟩] → ∀ c ∈ u.calls, u.Dated c := by
        intro u b hb hepoch hcalls
        exact dated_start hs hcalls (by omega) (dated_new (.inl hb) (by omega))
      rcases signal with - | stop
      · exact hnew (b := .draining s.generation s.detached) rfl (hfence _).2 rfl
      · cases stop
        · exact hnew (b := .lowering) rfl rfl rfl
        · exact hnew (b := .lowering) rfl (hfence _).2 (hfence _).1
        · exact hnew (b := .lowering) rfl (hfence _).2 (hfence _).1
        · exact hnew (b := .lowering) rfl (hfence _).2 (hfence _).1
  | act n mode outcome =>
    obtain ⟨c, hn, hact⟩ := Option.bind_eq_some_iff.mp hstep
    have hmoves := act_moves hact
    have hc := hs c (List.mem_of_getElem? hn)
    have hle := hmoves.lifecycleEpoch.ge
    rcases hmoves.calls with hcalls | ⟨b, hcalls, hb⟩
    · rw [hcalls]
      exact fun x hx ↦ (hs x hx).congr hle
    · refine dated_set hs hcalls hle ?_
      rcases hb with hb | ⟨-, rfl⟩
      · exact hc.goto hb hle
      · -- a connect that has waited reads the epoch only now
        refine ⟨hc.since.trans hle, ?_, ?_⟩
        · intro e he
          rcases s.epoch_afterWait with hnone | ⟨hepoch, -⟩
          · rw [hnone] at he
            cases he
          · obtain rfl := Option.some.inj (hepoch.symm.trans he)
            exact hc.since
        · intro e he hp
          rcases s.epoch_afterWait with hnone | ⟨-, hpurpose⟩
          · rw [hnone] at he
            cases he
          · rw [hpurpose] at hp
            cases hp

end State

/-! ## Results -/

/-- The call is a builder that has the object. -/
def Stage.builds (i : ℕ) : Stage → Bool
  | building _ _ h _ | discarding _ _ h _ => i ∈ h.distinct
  | _ => false

/-- The call is a disconnect that has detached the object, and is to close it. -/
def Stage.detaches (i : ℕ) : Stage → Bool
  | draining _ h | closing h => i ∈ h.distinct
  | _ => false

/-- What holds in a state. -/
structure Sound (s : State) : Prop where
  /-- What is published is one generation. -/
  mirrors : s.mirrors = match s.generation with
    | none => .none
    | some g => (s.generations g).handles
  /-- An object that was built is published, or in its builder, or in the disconnect that is to close it, or
  was closed once. -/
  owned : ∀ i < s.built, s.published i + s.calls.countP (fun c ↦ c.stage.builds i) +
    s.calls.countP (fun c ↦ c.stage.detaches i) + s.closes i = 1
  /-- A client that was closed is not leased. -/
  closed : ∀ g, ∀ i ∈ (s.generations g).handles.distinct, 0 < s.closes i → s.leases g = 0
  /-- An operation goes by the epoch in which it began. -/
  operation : ∀ c ∈ s.calls, ∀ e, c.stage.epoch = some e → c.since ≤ e ∧
    (c.stage.purpose = some .operation → e = c.since)

/-- What holds of a step. -/
structure SoundStep (s : State) (label : Label) (t : State) : Prop where
  /-- A generation is published when there is none. -/
  single : ∀ g, t.generation = some g → s.generation = some g ∨ s.generation = none
  /-- A lease is one of the published generation. -/
  granted : ∀ g, (s.generations g).activeLeases < (t.generations g).activeLeases →
    s.generation = some g ∧ t.generation = some g ∧ (s.generations g).accepting = true ∧ s.disconnecting = false
  /-- Who publishes has read its epoch since the last disconnect began. -/
  published : ∀ g, t.generation = some g → s.generation = none → ∃ n mode outcome c,
    label = .act n mode outcome ∧ s.calls[n]? = some c ∧ c.stage.epoch = some s.lifecycleEpoch
  /-- So has who leases, unless it begins with this step. -/
  leased : ∀ g, (s.generations g).activeLeases < (t.generations g).activeLeases →
    (∃ thread lost, label = .operation thread lost ∨ label = .probe thread lost) ∨
    ∃ n mode outcome c, label = .act n mode outcome ∧ s.calls[n]? = some c ∧
      c.stage.epoch = some s.lifecycleEpoch

section Results

open State

variable {s t : State} {n : ℕ} {c : Call} {b : Stage}

theorem stale_eq_false {e : ℕ} (h : s.stale e = false) : e = s.lifecycleEpoch ∧ s.disconnecting = false := by
  rw [State.stale, Bool.or_eq_false_iff] at h
  exact ⟨by simpa using h.1, h.2⟩

/-- A step that does not touch the generations. -/
theorem SoundStep.quiet {label : Label} (hgeneration : t.generation = s.generation)
    (hactive : ∀ g, (t.generations g).activeLeases ≤ (s.generations g).activeLeases) :
    SoundStep s label t where
  single g hg := .inl (hgeneration ▸ hg)
  granted g hg := absurd hg (not_lt.mpr (hactive g))
  published g hg hnone := by
    rw [hgeneration, hnone] at hg
    cases hg
  leased g hg := absurd hg (not_lt.mpr (hactive g))

theorem SoundStep.lease {label : Label} {g : ℕ} (hadmits : s.admits = some g) (hdisconnecting : s.disconnecting = false)
    (hgeneration : t.generation = s.generation) (hgenerations : t.generations = (s.lease g).generations)
    (hlabel : (∃ thread lost, label = .operation thread lost ∨ label = .probe thread lost) ∨
      ∃ n mode outcome c, label = .act n mode outcome ∧ s.calls[n]? = some c ∧
        c.stage.epoch = some s.lifecycleEpoch) : SoundStep s label t where
  single j hj := .inl (hgeneration ▸ hj)
  granted j hj := by
    rw [hgenerations, activeLeases_lease] at hj
    by_cases hjg : j = g
    · subst hjg
      obtain ⟨hg, haccepting⟩ := admits_eq_some hadmits
      exact ⟨hg, hgeneration.trans hg, haccepting, hdisconnecting⟩
    · rw [if_neg hjg] at hj
      omega
  published j hj hnone := by
    rw [hgeneration, hnone] at hj
    cases hj
  leased _ _ := hlabel

theorem SoundStep.of_step {label : Label} (hstep : s.step label = some t) : SoundStep s label t := by
  have hstart : ∀ label thread b, SoundStep s label (s.start thread b) :=
    fun label thread b ↦ .quiet rfl fun _ ↦ le_rfl
  cases label with
  | connect thread =>
    obtain rfl := Option.some.inj hstep
    unfold State.connect
    split_ifs <;> exact hstart _ _ _
  | operation thread lost =>
    obtain rfl := Option.some.inj hstep
    unfold State.operation
    split_ifs with hdisconnecting
    · exact hstart _ _ _
    · cases hg : s.admits with
      | none => exact hstart _ _ _
      | some g => exact .lease hg (Bool.eq_false_iff.mpr hdisconnecting) rfl rfl (.inl ⟨thread, lost, .inl rfl⟩)
  | probe thread lost =>
    obtain rfl := Option.some.inj hstep
    unfold State.probe
    split_ifs with hdisconnecting
    · exact hstart _ _ _
    · cases hg : s.admits with
      | none => exact hstart _ _ _
      | some g => exact .lease hg (Bool.eq_false_iff.mpr hdisconnecting) rfl rfl (.inl ⟨thread, lost, .inr rfl⟩)
  | disconnect thread signal =>
    obtain rfl := Option.some.inj hstep
    unfold State.disconnect
    split_ifs
    · exact hstart _ _ _
    · exact hstart _ _ _
    · exact hstart _ _ _
    · have hfence : ∀ u : State, u.fence.generation = u.generation ∧
          ∀ g, (u.fence.generations g).activeLeases = (u.generations g).activeLeases := by
        intro u
        unfold fence
        cases hu : u.generation with
        | none => exact ⟨hu, fun _ ↦ rfl⟩
        | some j =>
          refine ⟨hu, fun g ↦ ?_⟩
          by_cases hg : g = j
          · subst hg
            simp [State.modify]
          · simp [State.modify, hg]
      -- a disconnect publishes nothing
      have hnone : ∀ {u : State}, (u.generation = s.generation ∨ u.generation = none) →
          (∀ g, (u.generations g).activeLeases = (s.generations g).activeLeases) →
          SoundStep s (.disconnect thread signal) u := by
        intro u hu hactive
        refine ⟨?_, ?_, ?_, ?_⟩
        · intro g hg
          rcases hu with hu | hu
          · exact .inl (hu ▸ hg)
          · rw [hu] at hg
            cases hg
        · intro g hg
          rw [hactive] at hg
          exact absurd hg (lt_irrefl _)
        · intro g hg hs
          rcases hu with hu | hu <;> rw [hu] at hg
          · rw [hs] at hg
            cases hg
          · cases hg
        · intro g hg
          rw [hactive] at hg
          exact absurd hg (lt_irrefl _)
      rcases signal with - | stop
      · exact hnone (.inr rfl) (hfence _).2
      · cases stop
        · exact hnone (.inl rfl) fun _ ↦ rfl
        · exact hnone (.inl (hfence _).1) (hfence _).2
        · exact hnone (.inr rfl) (hfence _).2
        · exact hnone (.inr rfl) (hfence _).2
  | act n mode outcome =>
    obtain ⟨c, hn, hact⟩ := Option.bind_eq_some_iff.mp hstep
    rcases (act_moves hact).change with ⟨hgeneration, hgenerations⟩ |
      ⟨e, h, hepoch, hfresh, hnone, hgeneration, hgenerations⟩ |
      ⟨e, g, hepoch, hfresh, hadmits, hgeneration, hgenerations⟩ | ⟨g, hgeneration, hgenerations⟩
    · exact .quiet hgeneration fun g ↦ by rw [hgenerations]
    · have hactive : ∀ g, (t.generations g).activeLeases ≤ (s.generations g).activeLeases := by
        intro g
        rw [hgenerations]
        by_cases hg : g = s.count
        · rw [hg, Function.update_self]
          exact Nat.zero_le _
        · rw [Function.update_of_ne hg]
      obtain ⟨rfl, -⟩ := stale_eq_false hfresh
      exact ⟨fun g _ ↦ .inr hnone, fun g hg ↦ absurd hg (not_lt.mpr (hactive g)),
        fun g _ _ ↦ ⟨n, mode, outcome, c, rfl, hn, hepoch⟩, fun g hg ↦ absurd hg (not_lt.mpr (hactive g))⟩
    · obtain ⟨rfl, hdisconnecting⟩ := stale_eq_false hfresh
      exact .lease hadmits hdisconnecting hgeneration hgenerations
        (.inr ⟨n, mode, outcome, c, rfl, hn, hepoch⟩)
    · refine .quiet hgeneration fun j ↦ ?_
      rw [hgenerations, activeLeases_unlease]
      exact Nat.sub_le _ _

/-- A call that has an object is a builder or a disconnect. -/
theorem count_handles (stage : Stage) (i : ℕ) :
    stage.handles.distinct.count i = (stage.builds i).toNat + (stage.detaches i).toNat := by
  have hcount : ∀ h : Handles, h.distinct.count i = (decide (i ∈ h.distinct)).toNat := by
    intro h
    rw [Handles.count_distinct]
    by_cases hi : i ∈ h.distinct <;> simp [hi]
  cases stage with
  | building p e h rest => exact hcount h
  | discarding p e h why => exact hcount h
  | draining g h => exact (hcount h).trans (Nat.zero_add _).symm
  | closing h => exact (hcount h).trans (Nat.zero_add _).symm
  | _ => rfl

theorem held_eq (s : State) (i : ℕ) : s.held i = s.calls.countP (fun c ↦ c.stage.builds i) +
    s.calls.countP (fun c ↦ c.stage.detaches i) := by
  unfold State.held
  induction s.calls with
  | nil => rfl
  | cons c calls ih =>
    rw [List.map_cons, List.sum_cons, ih, count_handles, List.countP_cons, List.countP_cons]
    cases c.stage.builds i <;> cases c.stage.detaches i <;> simp <;> omega

/-- A generation with a client that is not closed twice: where there are leases, nothing is closed. -/
theorem State.Inv.closed (hi : s.Inv) (g : ℕ) {i : ℕ} (hmem : i ∈ (s.generations g).handles.distinct)
    (hcloses : 0 < s.closes i) : s.leases g = 0 := by
  have howned := hi.owned i
  have hle : s.published i + s.held i + s.closes i ≤ 1 := by
    rw [howned]
    split_ifs <;> omega
  have hone : (s.generations g).handles.distinct.count i = 1 := by
    rw [Handles.count_distinct, if_pos hmem]
  have hcurrent : s.generation ≠ some g := by
    intro hg
    rw [State.published, hg] at hle
    dsimp only at hle
    omega
  have hdrains : s.drains g = 0 := by
    rw [State.drains, List.countP_eq_zero]
    intro c hc hd
    obtain ⟨h, hstage⟩ : ∃ h, c.stage = .draining (some g) h := by
      cases hcs : c.stage with
      | draining g' h =>
        rw [hcs] at hd
        obtain rfl : g' = some g := of_decide_eq_true hd
        exact ⟨h, rfl⟩
      | _ =>
        rw [hcs] at hd
        cases hd
    obtain ⟨-, rfl⟩ := (hi.calls c hc).drains g h hstage
    obtain ⟨n, hn⟩ := List.mem_iff_getElem?.mp hc
    have hheld : c.stage.handles.distinct.count i ≤ s.held i :=
      List.le_sum_map (fun c : Call ↦ c.stage.handles.distinct.count i) hn
    rw [hstage] at hheld
    change (s.generations g).handles.distinct.count i ≤ s.held i at hheld
    omega
  have hzero := hi.retired g hcurrent hdrains
  have := hi.leases g
  omega

/-- **Redis generations.** In every run in which signals come out of calls, or lose a lease, each state and
each step is sound. -/
theorem redis_generations {as : List Label} (has : ∀ a ∈ as, a.handled = true) {s : State}
    (hrun : machine.run machine.init as = some s) :
    Sound s ∧ ∀ label t, label.handled = true → s.step label = some t → SoundStep s label t := by
  have halong : machine.Along (fun _ a ↦ a.handled = true) machine.init as := Machine.Along.of_forall has
  have hinv : s.Inv ∧ ∀ c ∈ s.calls, s.Dated c := by
    refine (halong.always (I := fun s ↦ s.Inv ∧ ∀ c ∈ s.calls, s.Dated c) ?_ ⟨Inv.new, nofun⟩).of_run hrun
    rintro s a t ⟨hi, hd⟩ ha hstep
    exact ⟨hi.step ha hstep, Dated.step hd hstep⟩
  obtain ⟨hi, hd⟩ := hinv
  refine ⟨⟨hi.mirrors, ?_, ?_, ?_⟩, fun label t _ hstep ↦ .of_step hstep⟩
  · intro i hlt
    have howned := hi.owned i
    rw [if_pos hlt, held_eq] at howned
    omega
  · intro g i hmem hcloses
    exact hi.closed g hmem hcloses
  · intro c hc e he
    exact ⟨(hd c hc).epoch e he, (hd c hc).operation e he⟩

end Results

/-- The steps of a call, without a failure. -/
def proceed (n steps : ℕ) : List Label := List.replicate steps (.act n .standalone .ok)

/-- An operation connects, and a disconnect waits for it. -/
def connectAndDrain : List Label :=
  [.operation 1 false] ++ proceed 0 10 ++ [.disconnect 2 none, .act 1 .standalone .control]

theorem isSome_connectAndDrain : (machine.run machine.init connectAndDrain).isSome = true := by decide +kernel

/-- The state after it. -/
def draining : State := Option.get _ isSome_connectAndDrain

theorem redis_generations_draining :
    draining.built = 1 ∧ draining.leases 0 = 1 ∧ draining.generation = none ∧ draining.closes 0 = 0 ∧
      Sound draining := by
  refine ⟨?_, ?_, ?_, ?_, ?_⟩
  · decide +kernel
  · decide +kernel
  · decide +kernel
  · decide +kernel
  · exact (redis_generations (by decide) (Option.some_get isSome_connectAndDrain).symm).1

/-- A connect waits for a disconnect, and after that for another one that has begun since. -/
def waitsTwice : List Label :=
  [.disconnect 1 none, .connect 2] ++ proceed 0 3 ++ [.disconnect 1 none] ++ proceed 2 3 ++ proceed 1 9

theorem isSome_waitsTwice : (machine.run machine.init waitsTwice).isSome = true := by decide +kernel

/-- The state after it. -/
def waitedTwice : State := Option.get _ isSome_waitsTwice

/-- **A connect that began before a disconnect** may publish after it: it has waited for that disconnect
too. -/
theorem waiting_connect_publishes : ¬ ∀ (as : List Label) (s t : State) (n : ℕ) (mode : Mode) (c : Call),
    (∀ a ∈ as, a.handled = true) → machine.run machine.init as = some s → s.calls[n]? = some c →
    s.step (.act n mode .ok) = some t → s.generation = none → t.generation.isSome = true →
    c.since = s.lifecycleEpoch := by
  intro hclaim
  have hstep : (waitedTwice.step (.act 1 .standalone .ok)).isSome = true := by decide +kernel
  have hcall : (waitedTwice.calls[1]?).isSome = true := by decide +kernel
  have hsince := hclaim waitsTwice waitedTwice (Option.get _ hstep) 1 .standalone (Option.get _ hcall)
    (by decide) (Option.some_get isSome_waitsTwice).symm (Option.some_get hcall).symm
    (Option.some_get hstep).symm (by decide +kernel)
  revert hstep hcall
  decide +kernel

/-- A signal between two statements of a disconnect: the client is detached, and nobody closes it. -/
example : ((machine.run machine.init ([.connect 1] ++ proceed 0 9 ++ [.disconnect 1 (some .detached)] ++
    proceed 1 1)).map fun s ↦ (s.built, s.generation, s.held 0, s.closes 0)) = some (1, none, 0, 0) := by
  decide +kernel

end RedisGenerations

end ScrapyExtension
