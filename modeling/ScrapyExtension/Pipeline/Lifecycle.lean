import ScrapyExtension.Machine.Basic
import ScrapyExtension.Machine.Threads
import Mathlib.Tactic

/-!
# The lifecycle of the pipeline

`BackendPipeline` stores items through a strategy, and closes the strategy once. A store is admitted unless
the pipeline is closing; a close waits for the stores that are admitted, closes the strategy, and releases
the manager. A close from inside of a store cannot wait for it: it is parked, and the last store to leave
resumes it. A strategy that cannot be closed leaves the pipeline closing, for a later attempt.

Outside of a running reactor a call does its work on its own thread. Below one, an item or a close gets to
the end of a chain of deferreds, and a thread of the pool does the same work when its turn has come. A close
reserves the pipeline when it is called, and a worker takes the reservation over.

## Steps

A section under `_lifecycle_lock` is a step, and so is each end of a callback: the strategy, the manager and
the thread pool. The wait for the stores gives the lock up. A call is named by its place in `calls`, and
knows its thread; calls from inside of a callback are calls of the same thread. What comes to the chain of
deferreds is a `queued` call: it starts once the queued calls of its chain before it are over, whatever their
callers have been told in the meantime. A close that the pool refuses begins a new chain.

Spiders and results are left out, and whether the observer of an open gets a failure is left open. `releases`
is history.
-/

namespace ScrapyExtension

namespace Pipeline

/-! ## The data -/

/-- Who has called `_close_locked`. -/
inductive Context
  | plain
  /-- A store that leaves. -/
  | resumed
  /-- An open that is rolled back, with `force_manager_release`. -/
  | forced
deriving DecidableEq

/-- Where a call is. -/
inductive Stage
  /-- `_process_item_sync` -/
  | admission
  | storing
  | queuedItem
  | queuedClose
  /-- `run_reserved_close` -/
  | reserved
  /-- The thread pool has refused a close. -/
  | rejected
  /-- `_close_spider_sync` -/
  | close
  | awaitOpen
  /-- The first section of `_close_locked`. -/
  | enter (x : Context)
  /-- It waits for stores. -/
  | wait (x : Context)
  /-- `storage_strategy.close` -/
  | closing (x : Context)
  /-- It has raised. -/
  | failing (x : Context)
  /-- The last section of `_close_locked`. -/
  | publish (x : Context) (failed : Bool)
  /-- The manager is released. -/
  | release (x : Context)
  /-- The end of `_leave_store`, after a close that has raised. -/
  | restore
  /-- `continue_after_open` -/
  | afterOpen
  /-- `_open_spider_sync` -/
  | start (g : Option ℕ)
  | opening (g : ℕ)
  | openFailed (g : ℕ)
  | opened (g : ℕ)
  /-- A close has come during an open. -/
  | overtaken
  /-- `_finish_async_open` -/
  | observe
  /-- An item that was not stored. -/
  | refused
  | over
deriving DecidableEq

structure Call where
  thread : ℕ
  /-- It came to the chain of deferreds. -/
  queued : Bool
  /-- The first call of this chain. -/
  chain : ℕ
  /-- It is the worker of an `_open_spider_async`. -/
  observed : Bool
  stage : Stage
deriving DecidableEq

/-- `BackendPipeline` -/
structure State where
  closed : Bool
  closing : Bool
  /-- `_close_owner_thread_id` -/
  closeOwner : Option ℕ
  closeAsyncPending : Bool
  closeWaitingForStores : Bool
  activeStoreCount : ℕ
  activeStoreThreads : ℕ → ℕ
  isOpen : Bool
  isOpening : Bool
  openingGeneration : Option ℕ
  /-- `_opening_owner_thread_id` -/
  openingOwner : Option ℕ
  /-- `_opening_operation` is set. -/
  openingOperation : Bool
  openCloseRequested : Bool
  lifecycleGeneration : ℕ
  ownsConnectionManager : Bool
  managerReleased : Bool
  /-- The chain at `_async_tail` begins here. -/
  asyncTail : ℕ
  calls : List Call
  /-- How often the manager was released. -/
  releases : ℕ

/-- What a step of a call comes to, where this is not up to the pipeline. -/
inductive Outcome
  | ok
  | failed
  /-- The pool has a thread. -/
  | accepted (thread : ℕ)
  | rejected
deriving DecidableEq

/-- What can happen. -/
inductive Label
  | process (thread : ℕ)
  | close (thread : ℕ)
  | openSpider (thread : ℕ)
  | processAsync
  | closeAsync
  | openAsync (thread : ℕ)
  /-- A call goes on. -/
  | act (n : ℕ) (outcome : Outcome)
deriving DecidableEq

namespace Stage

/-- The worker is done. -/
def finished : Stage → Bool
  | .refused | .over => true
  | _ => false

end Stage

namespace State

def new (ownsConnectionManager : Bool) : State :=
  ⟨false, false, none, false, false, 0, fun _ ↦ 0, false, false, none, none, false, false, 0,
    ownsConnectionManager, false, 0, [], 0⟩

/-! ## Stores -/

/-- The admission of `_process_item_sync` -/
def admits (s : State) : Bool := !s.closed && !s.closing

def enterStore (s : State) (thread : ℕ) : State :=
  { s with
    activeStoreCount := s.activeStoreCount + 1
    activeStoreThreads :=
      Function.update s.activeStoreThreads thread (s.activeStoreThreads thread + 1) }

/-- A parked close is resumed. -/
def resumes (s : State) : Bool := s.activeStoreCount = 1 && s.closing && s.closeWaitingForStores

/-- The section of `_leave_store` -/
def leaveStore (s : State) (thread : ℕ) : State :=
  let t := { s with
    activeStoreCount := s.activeStoreCount - 1
    activeStoreThreads :=
      Function.update s.activeStoreThreads thread (s.activeStoreThreads thread - 1) }
  if s.resumes then { t with closeWaitingForStores := false, closeOwner := none } else t

/-! ## `_close_locked` -/

/-- The attempt is the recursive one of the thread that closes the strategy. -/
def recursive (s : State) (thread : ℕ) : Bool :=
  s.closing && s.closeOwner = some thread && !s.closeWaitingForStores

/-- The attempt is refused. -/
def refuses (s : State) (thread : ℕ) : Bool :=
  s.closing && s.closeOwner ≠ some thread && (s.closeAsyncPending || s.closeOwner.isSome)

/-- The pipeline is closing, on behalf of the thread. -/
def claim (s : State) (thread : ℕ) : State :=
  { s with closing := true, closeAsyncPending := false, closeOwner := some thread }

/-- The end of a call. -/
def done (c : Call) : Stage := if c.observed then .observe else .over

/-- The end of a `_close_locked` that has raised. -/
def raised (c : Call) : Context → Stage
  | .resumed => .restore
  | _ => done c

/-- One round of the wait for the stores. -/
def await (s : State) (c : Call) (x : Context) : Option (State × Stage) :=
  if s.activeStoreCount = 0 then some ({ s with closeWaitingForStores := false }, .closing x)
  else if 0 < s.activeStoreThreads c.thread then
    -- the store of this thread resumes the close
    some ({ s with closeWaitingForStores := true }, done c)
  else none

/-- The first section -/
def enter (s : State) (c : Call) (x : Context) : State × Stage :=
  if s.closed then (s, done c)
  else if s.recursive c.thread then (s, done c)
  else if s.refuses c.thread then (s, raised c x)
  else ((s.claim c.thread).await c x).getD (s.claim c.thread, .wait x)

/-- The section after a strategy has raised. -/
def fail (s : State) : State := { s with closeOwner := none, closeWaitingForStores := false }

/-- The last section -/
def publish (s : State) : State :=
  let releases := s.ownsConnectionManager && !s.managerReleased
  { s with
    closed := true
    closing := false
    closeAsyncPending := false
    closeOwner := none
    isOpen := false
    openCloseRequested := false
    managerReleased := s.managerReleased || releases
    releases := s.releases + releases.toNat }

/-- The admission of a close is given back. -/
def releaseRejectedClose (s : State) : State :=
  { s with
    closing := false
    closeAsyncPending := false
    closeOwner := none
    asyncTail := s.calls.length }

/-! ## Opens -/

/-- An open is over. -/
def endOpening (s : State) : State :=
  { s with isOpening := false, openingGeneration := none, openingOwner := none, openingOperation := false }

/-- The first section of `_open_spider_sync` -/
def openSpider (s : State) (c : Call) (g : Option ℕ) : State × Stage :=
  if s.closed ∨ (s.closing ∧ g.isNone) ∨ s.isOpen then (s, done c)
  else
    match g with
    | none =>
      ({ s with
          lifecycleGeneration := s.lifecycleGeneration + 1
          openingGeneration := some (s.lifecycleGeneration + 1)
          openCloseRequested := false
          isOpening := true
          openingOwner := some c.thread },
        .opening (s.lifecycleGeneration + 1))
    | some g =>
      if s.openingGeneration = some g then
        ({ s with isOpening := true, openingOwner := some c.thread }, .opening g)
      else (s, done c)

/-- Whether an open may be published. -/
def isCurrent (s : State) (g : ℕ) : Bool :=
  s.openingGeneration = some g && !s.closed && !s.closing && !s.openCloseRequested

/-- The last section of `_open_spider_sync` -/
def publishOpen (s : State) (g : ℕ) : State :=
  let t := if s.isCurrent g then { s with isOpen := true } else s
  if s.openingGeneration = some g then { t.endOpening with openCloseRequested := false } else t

/-! ## Steps -/

/-- A call goes to another stage. -/
def goto (s : State) (n : ℕ) (c : Call) (stage : Stage) : State :=
  { s with calls := s.calls.set n { c with stage } }

/-- A new call. -/
def call (s : State) (c : Call) : State := { s with calls := s.calls ++ [c] }

/-- The queued calls of a chain before this one are over. -/
def turn (s : State) (n : ℕ) (c : Call) : Bool :=
  ((s.calls.take n).drop c.chain).all fun c ↦ !c.queued || c.stage.finished

/-- A reservation -/
def reserve (s : State) : State :=
  { s with closing := true, closeAsyncPending := true }.call ⟨0, true, s.asyncTail, false, .queuedClose⟩

/-- `_close_spider_async`. A close that is refused leaves no call. -/
def closeSpiderAsync (s : State) : State :=
  if s.closed then s
  else if s.isOpening ∧ s.openingOperation then
    { s with openCloseRequested := true, closeAsyncPending := true }.call ⟨0, false, 0, false, .afterOpen⟩
  else if s.isOpening ∨ s.closing then s
  else s.reserve

/-- A call goes on. -/
def act (s : State) (n : ℕ) (c : Call) (outcome : Outcome) : Option State :=
  match c.stage with
  | .admission =>
    if s.admits then some ((s.enterStore c.thread).goto n c .storing) else some (s.goto n c .refused)
  | .storing =>
    some ((s.leaveStore c.thread).goto n c (if s.resumes then .enter .resumed else .over))
  | .queuedItem =>
    if s.turn n c then
      match outcome with
      | .accepted thread => some (s.goto n { c with thread } .admission)
      | .rejected => some (s.goto n c .refused)
      | _ => none
    else none
  | .queuedClose =>
    if s.turn n c then
      match outcome with
      | .accepted thread => some (s.goto n { c with thread } .reserved)
      | .rejected => some (s.releaseRejectedClose.goto n c .rejected)
      | _ => none
    else none
  | .reserved =>
    some ({ s with closeAsyncPending := false, closeOwner := none }.goto n c .close)
  | .rejected =>
    -- the second time only where the chain was idle when the close was called
    some ((if outcome = .ok then s.releaseRejectedClose else s).goto n c .over)
  | .close =>
    if s.closed then some (s.goto n c .over)
    else if s.isOpening then
      some ({ s with openCloseRequested := true }.goto n c
        (if s.openingOwner = some c.thread then .over else .awaitOpen))
    else some (s.goto n c (.enter .plain))
  | .awaitOpen => if s.isOpening then none else some (s.goto n c (.enter .plain))
  | .enter x =>
    let (t, stage) := s.enter c x
    some (t.goto n c stage)
  | .wait x => (s.await c x).map fun r ↦ r.1.goto n c r.2
  | .closing x => some (s.goto n c (if outcome = .ok then .publish x false else .failing x))
  | .failing x => some (s.fail.goto n c (if x = .forced then .publish x true else raised c x))
  | .publish x _ =>
    some (s.publish.goto n c
      (if s.ownsConnectionManager ∧ ¬ s.managerReleased then .release x else done c))
  | .release x => some (s.goto n c (if outcome = .ok then done c else raised c x))
  | .restore => some ({ s with closing := false, closeOwner := none }.goto n c .over)
  | .afterOpen => some ((s.goto n c .over).closeSpiderAsync)
  | .start g =>
    if c.observed ∧ outcome = .rejected then some (s.goto n c .observe)
    else
      let (t, stage) := s.openSpider c g
      some (t.goto n c stage)
  | .opening g => some (s.goto n c (if outcome = .ok then .opened g else .openFailed g))
  | .openFailed g =>
    some ((if s.openingGeneration = some g then s.endOpening else s).goto n c (.enter .forced))
  | .opened g => some ((s.publishOpen g).goto n c (if s.isCurrent g then .over else .overtaken))
  | .overtaken =>
    some (s.goto n c (if s.closed ∨ s.closeAsyncPending then done c else .enter .forced))
  | .observe =>
    some ((if outcome = .failed ∧ s.isOpening then s.endOpening else s).goto n c .over)
  | .refused | .over => none

/-- One step. -/
def step (s : State) : Label → Option State
  | .process thread => some (s.call ⟨thread, false, 0, false, .admission⟩)
  | .close thread => some (s.call ⟨thread, false, 0, false, .close⟩)
  | .openSpider thread => some (s.call ⟨thread, false, 0, false, .start none⟩)
  | .processAsync =>
    if s.closed ∨ s.closing ∨ s.isOpening then some s
    else some (s.call ⟨0, true, s.asyncTail, false, .queuedItem⟩)
  | .closeAsync => some s.closeSpiderAsync
  | .openAsync thread =>
    if s.closed ∨ s.closing ∨ s.isOpening then some s
    else
      some ({ s with
        lifecycleGeneration := s.lifecycleGeneration + 1
        isOpening := true
        openingGeneration := some (s.lifecycleGeneration + 1)
        openingOwner := none
        openingOperation := true
        openCloseRequested := false }.call
          ⟨thread, false, 0, true, .start (some (s.lifecycleGeneration + 1))⟩)
  | .act n outcome => s.calls[n]?.bind fun c ↦ s.act n c outcome

end State

/-- The pipeline as a machine. -/
def machine (ownsConnectionManager : Bool) : Machine State Label where
  init := State.new ownsConnectionManager
  step := State.step

end Pipeline

end ScrapyExtension
